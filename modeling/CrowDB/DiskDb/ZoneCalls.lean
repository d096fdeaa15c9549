import CrowDB.DiskDb.ZoneAllocate

/-!
# Concurrent calls on the words of a zone

Any number of `allocate` and `rollback_allocate` calls, one atomic operation at a time. A
call answers for the bits that it has set and not cleared again, and for what it has added
to the used count. No two calls answer for one bit, because a bit is set by an exchange of
a word in which it was clear; but a call gets rid of a bit only if nobody changes the word
between the load and the exchange that clears it.
-/
namespace CrowDB.DiskDb
open Lib BitWords Prog ZoneOp List

inductive ZoneResult
  | allocated (r : Option AllocatedRange)
  | rolledBack (r : AllocatedRange) (ok : Bool)
  deriving DecidableEq

/-- A call, by what is left of its program. -/
abbrev ZoneCall := ZoneProg ZoneResult

def callAllocate (z : ZoneShape) (count casRetryLimit : ℕ) : ZoneCall := do
  return .allocated (← allocate z count casRetryLimit)

def callRollback (z : ZoneShape) (r : AllocatedRange) : ZoneCall := do
  return .rolledBack r (← rollbackAllocate z r)

structure ZoneCalls where
  cells : ZoneCells
  calls : List ZoneCall := []

inductive CallAction
  | beginAllocate (count casRetryLimit : ℕ)
  /-- Roll back the range that call `k` has returned. -/
  | beginRollback (k : ℕ)
  /-- The next operation of call `k`. -/
  | advance (k : ℕ)

namespace ZoneCalls

def step (z : ZoneShape) (s : ZoneCalls) : CallAction → Option ZoneCalls
  | .beginAllocate count limit => some { s with calls := s.calls ++ [callAllocate z count limit] }
  | .beginRollback k =>
    match s.calls[k]? with
    | some (.ret (.allocated (some r))) =>
      some { s with calls := s.calls.set k (callRollback z r) }
    | _ => none
  | .advance k =>
    match s.calls[k]? with
    | some (.call o f) =>
      some ⟨(o.exec s.cells).2, s.calls.set k (f (o.exec s.cells).1)⟩
    | _ => none

/-- An exchange that clears a bit finds the word as it was loaded. -/
def clearsAtOnce (s : ZoneCalls) : CallAction → Bool
  | .advance k =>
    match s.calls[k]? with
    | some (.call (.casWord i current new) _) =>
      current ||| new ≠ current || s.cells.words.getD i 0 = current
    | _ => true
  | _ => true

def results (s : ZoneCalls) : List ZoneResult := s.calls.filterMap result?

/-- The ranges returned and not rolled back. -/
def live (s : ZoneCalls) : List AllocatedRange :=
  s.results.filterMap fun
    | .allocated r => r
    | .rolledBack .. => none

end ZoneCalls

/-- Calls on a new zone. -/
def zoneCalls (z : ZoneShape) : System ZoneCalls CallAction where
  init s := s = { cells := ⟨replicate z.wordCount 0, 0, 0⟩ }
  step := ZoneCalls.step z

/-- What a call answers for. -/
structure Claim where
  held : List ℕ := []
  counted : ℕ := 0

/-- What an operation may rely on, and what becomes of the claim of its call. -/
def ZoneOp.rule (z : ZoneShape) : (o : ZoneOp) → Claim → (o.Ans → Claim → Prop) → Prop
  | loadWord i, g, P =>
    ∀ w : BitVec 64, (∀ u ∈ g.held, u / 64 = i → w.getLsbD (u % 64) = true) → P w g
  | casWord i current new, g, P => ∃ u, u / 64 = i ∧ u < z.unitCapacity ∧
    ((current.getLsbD (u % 64) = false ∧ new = current ||| mask u ∧ P false g ∧
        P true { g with held := g.held ++ [u] }) ∨
      (u ∈ g.held ∧ current.getLsbD (u % 64) = true ∧ new = current &&& ~~~mask u ∧
        P true { g with held := g.held.erase u }))
  | fetchAddUsed n, g, P => P () { g with counted := g.counted + n }
  | fetchSubUsed n, g, P => n ≤ g.counted ∧ P () { g with counted := g.counted - n }
  | loadUsed, g, P => ∀ w, P w g
  | loadPos, g, P => ∀ n, P n g
  | storePos _, g, P => P () g

/-- What a result means for the claim. -/
def Fulfils (z : ZoneShape) : ZoneResult → Claim → Prop
  | .allocated none, g => g = {}
  | .allocated (some r), g => g = ⟨r.bits, r.unitCount⟩ ∧ 0 < r.unitCount ∧
    r.unitOffset + r.unitCount ≤ z.unitCapacity
  | .rolledBack _ ok, g => ok = true ∧ g = {}

variable {n : ℕ}

section Programs
variable {z : ZoneShape} {u start count : ℕ} {g : Claim}

lemma rule_mono (o : ZoneOp) (g : Claim) (P P' : o.Ans → Claim → Prop)
    (h : ∀ r g', P r g' → P' r g') (hP : rule z o g P) : rule z o g P' := by
  cases o with
  | loadWord => exact fun w hw => h w g (hP w hw)
  | casWord =>
    obtain ⟨u, hi, hu, ⟨hbit, hnew, hf, ht⟩ | ⟨hheld, hbit, hnew, ht⟩⟩ := hP
    · exact ⟨u, hi, hu, .inl ⟨hbit, hnew, h _ _ hf, h _ _ ht⟩⟩
    · exact ⟨u, hi, hu, .inr ⟨hheld, hbit, hnew, h _ _ ht⟩⟩
  | fetchSubUsed => exact ⟨hP.1, h _ _ hP.2⟩
  | fetchAddUsed | storePos => exact h _ _ hP
  | loadUsed | loadPos => exact fun w => h w g (hP w)

lemma follows_setBit (hu : u < z.unitCapacity) : (casBit u true).Follows (rule z)
    (fun ok g' => g' = if ok then { g with held := g.held ++ [u] } else g) g := by
  rw [casBit, follows_perform_bind]
  intro w _
  simp only [and_mask_ne_zero]
  split
  · rfl
  · next hbit => exact ⟨u, rfl, hu, .inl ⟨by simpa using hbit, rfl, rfl, rfl⟩⟩

lemma follows_clearBit (hu : u < z.unitCapacity) (hheld : u ∈ g.held) :
    (casBit u false).Follows (rule z)
      (fun ok g' => ok = true ∧ g' = { g with held := g.held.erase u }) g := by
  rw [casBit, follows_perform_bind]
  intro w hw
  have hbit := hw u hheld rfl
  simp only [and_mask_ne_zero, hbit]
  exact ⟨u, rfl, hu, .inr ⟨hheld, hbit, rfl, rfl, rfl⟩⟩

lemma follows_bitsAre {p : Prop} {set : Bool} {bit : ℕ}
    (hp : p → set = true ∧ ∀ j < n, bit + j ∈ g.held) :
    (bitsAre set bit n).Follows (rule z) (fun r g' => g' = g ∧ (p → r = true)) g := by
  induction n generalizing bit with
  | zero => exact ⟨rfl, fun _ => rfl⟩
  | succ n ih =>
    rw [bitsAre, follows_perform_bind]
    intro w hw
    simp only [and_mask_ne_zero]
    split
    · refine ih fun h => ⟨(hp h).1, fun j hj => ?_⟩
      rw [Nat.add_assoc, Nat.add_comm 1]
      exact (hp h).2 (j + 1) (by omega)
    · next hne =>
      refine ⟨rfl, fun h => absurd ?_ hne⟩
      rw [(hp h).1]
      exact hw bit ((hp h).2 0 (by omega)) rfl

lemma follows_setBits {i c : ℕ} (hcap : start + i + n ≤ z.unitCapacity) :
    (casBits true start i n).Follows (rule z) (fun r g' => r.getD (i + n) ≤ i + n ∧
      g' = ⟨range' start (r.getD (i + n)), c⟩) ⟨range' start i, c⟩ := by
  induction n generalizing i with
  | zero => exact ⟨le_rfl, rfl⟩
  | succ n ih =>
    refine follows_bind rule_mono (follows_setBit (by omega)) ?_
    rintro (_ | _) _ rfl
    · exact ⟨Nat.le_add_right i _, rfl⟩
    · have hnext : range' start i ++ [start + i] = range' start (i + 1) := by
        rw [range'_concat, one_mul]
      rw [hnext, show i + (n + 1) = i + 1 + n by omega]
      exact ih (by omega)

lemma follows_undoBits {c : ℕ} (hcap : start + n ≤ z.unitCapacity) :
    (undoBits false (range' start n)).Follows (rule z) (fun _ g' => g' = ⟨[], c⟩)
      ⟨range' start n, c⟩ := by
  induction n generalizing start with
  | zero => rfl
  | succ n ih =>
    rw [range'_succ]
    refine follows_bind rule_mono (follows_clearBit (by omega) mem_cons_self) ?_
    rintro _ _ ⟨-, rfl⟩
    rw [erase_cons_head]
    exact ih (by omega)

lemma follows_clearBits {i c : ℕ} (hcap : start + i + n ≤ z.unitCapacity) :
    (casBits false start i n).Follows (rule z) (fun r g' => r = none ∧ g' = ⟨[], c⟩)
      ⟨range' (start + i) n, c⟩ := by
  induction n generalizing i with
  | zero => exact ⟨rfl, rfl⟩
  | succ n ih =>
    rw [range'_succ]
    refine follows_bind rule_mono (follows_clearBit (by omega) mem_cons_self) ?_
    rintro _ _ ⟨rfl, rfl⟩
    rw [erase_cons_head]
    exact ih (by omega)

lemma follows_claimOnce (hcap : start + count ≤ z.unitCapacity) :
    (claimOnce start count).Follows (rule z)
      (fun r g' => g' = ⟨if r.toOption = some true then range' start count else [], 0⟩) {} := by
  refine follows_bind rule_mono (follows_bitsAre False.elim) ?_
  rintro (_ | _) _ ⟨rfl, -⟩
  · rfl
  · refine follows_bind rule_mono (follows_setBits (by omega)) ?_
    rintro (_ | i) _ ⟨hle, rfl⟩
    · simp [Follows, pure, Except.toOption]
    · simp only [Option.getD_some] at hle ⊢
      refine follows_bind rule_mono (follows_undoBits (by omega)) ?_
      rintro _ _ rfl
      rfl

lemma follows_tryClaimRange (hcap : start + count ≤ z.unitCapacity) (left : ℕ) :
    (tryClaimRange start count left).Follows (rule z)
      (fun r g' => g' = ⟨if r.1 then range' start count else [], 0⟩) {} := by
  induction left with
  | zero =>
    refine follows_bind rule_mono (follows_claimOnce hcap) ?_
    rintro (_ | _ | _) _ rfl <;> rfl
  | succ left ih =>
    refine follows_bind rule_mono (follows_claimOnce hcap) ?_
    rintro (bit | claimed) _ rfl
    · simp only
      split
      · rfl
      · refine follows_bind rule_mono (follows_bitsAre False.elim) ?_
        rintro (_ | _) _ ⟨rfl, -⟩
        · rfl
        · exact ih
    · cases claimed <;> rfl

/-- What the search of a word leaves. -/
def Claimed (z : ZoneShape) (count : ℕ) : Option ℕ × ℕ → Claim → Prop
  | (none, _), g => g = {}
  | (some start, _), g => start + count ≤ z.unitCapacity ∧ g = ⟨range' start count, 0⟩

lemma follows_scanWord (base rounds : ℕ) (scan : BitVec 64) (left : ℕ) :
    (scanWord z base count rounds scan left).Follows (rule z) (Claimed z count) {} := by
  induction rounds generalizing scan left with
  | zero => rfl
  | succ rounds ih =>
    simp only [scanWord]
    split
    · rfl
    · next hgo =>
      refine follows_bind rule_mono (follows_tryClaimRange (by omega) left) ?_
      rintro ⟨_ | _, left'⟩ _ rfl
      · simp only [Bool.false_eq_true, if_false]
        split
        · rfl
        · exact ih _ left'
      · exact ⟨by omega, rfl⟩

lemma follows_searchWords (hcount : 0 < count) (start i n left : ℕ) :
    (searchWords z start count i n left).Follows (rule z)
    (fun r => Fulfils z (.allocated r)) {} := by
  induction n generalizing i left with
  | zero => rfl
  | succ n ih =>
    have hword : (claimInWord z ((start + i) % z.wordCount) count left).Follows (rule z)
        (Claimed z count) {} := by
      rw [claimInWord, follows_perform_bind]
      intro w _
      split
      · rfl
      · exact follows_scanWord _ _ _ _
    refine follows_bind rule_mono hword ?_
    rintro ⟨_ | offset, left'⟩ g hg
    · rw [show g = {} from hg]
      exact ih _ left'
    · obtain ⟨hle, rfl⟩ := hg
      exact ⟨congrArg (Claim.mk _) (Nat.zero_add count), hcount, hle⟩

lemma follows_callAllocate (count limit : ℕ) :
    (callAllocate z count limit).Follows (rule z) (Fulfils z) {} := by
  refine follows_bind rule_mono ?_ fun _ _ => id
  rw [allocate, follows_perform_bind]
  intro used
  split
  · rfl
  · next hgo =>
    intro pos
    exact follows_searchWords (by omega) _ _ _ _

lemma follows_callRollback {r : AllocatedRange} (h : Fulfils z (.allocated (some r)) g) :
    (callRollback z r).Follows (rule z) (Fulfils z) g := by
  obtain ⟨rfl, hpos, hle⟩ := h
  refine follows_bind rule_mono ?_ fun _ _ => id
  rw [rollbackAllocate, if_neg (by omega)]
  refine follows_bind rule_mono (follows_bitsAre (p := True) fun _ => ⟨rfl, fun j hj => ?_⟩) ?_
  · exact mem_range'_1.mpr ⟨by omega, by omega⟩
  · rintro _ _ ⟨rfl, hall⟩
    rw [hall trivial]
    refine follows_bind rule_mono (follows_clearBits (by omega)) ?_
    rintro _ _ ⟨rfl, rfl⟩
    exact ⟨le_rfl, rfl, congrArg (Claim.mk _) (Nat.sub_self _)⟩

end Programs

/-! ## The claims of all calls -/

/-- The calls with their claims: the set bits are those that some call answers for, and no two
answer for one bit. -/
structure Accounts (z : ZoneShape) (cells : ZoneCells) (l : List (ZoneCall × Claim)) : Prop where
  follows : ∀ x ∈ l, x.1.Follows (rule z) (Fulfils z) x.2
  nodup : (l.flatMap (·.2.held)).Nodup
  test : ∀ u, test cells.words u = true ↔ u ∈ l.flatMap (·.2.held)
  used : cells.usedCount = BitVec.ofNat 32 (l.map (·.2.counted)).sum
  length : cells.words.length = z.wordCount

variable {cells' : ZoneCells}

namespace Accounts
variable {z : ZoneShape} {cells : ZoneCells} {l l' : List (ZoneCall × Claim)} {g : Claim}

lemma perm (h : Accounts z cells l) (hp : l.Perm l') : Accounts z cells l' where
  follows x hx := h.follows x (hp.mem_iff.mpr hx)
  nodup := (hp.flatMap_right _).nodup_iff.mp h.nodup
  test u := (h.test u).trans (hp.flatMap_right _).mem_iff
  used := h.used.trans (congrArg _ (hp.map _).sum_eq)
  length := h.length

section Head
variable {c c' : ZoneCall} {u : ℕ} (h : Accounts z cells ((c, g) :: l))
include h

lemma recount (hc : c'.Follows (rule z) (Fulfils z) { g with counted := n })
    (hwords : cells'.words = cells.words)
    (hused : ∀ m, cells.usedCount = BitVec.ofNat 32 (g.counted + m) →
      cells'.usedCount = BitVec.ofNat 32 (n + m)) :
    Accounts z cells' ((c', { g with counted := n }) :: l) :=
  ⟨forall_mem_cons.mpr ⟨hc, (forall_mem_cons.mp h.follows).2⟩, h.nodup, hwords ▸ h.test,
    hused _ (h.used.trans (congrArg _ sum_cons)) |>.trans (congrArg _ sum_cons.symm),
    hwords ▸ h.length⟩

/-- The call sets a bit that is clear, so that no call has it. -/
theorem setBit (hu : u < z.unitCapacity) (hbit : BitWords.test cells.words u = false)
    (hc : c'.Follows (rule z) (Fulfils z) { g with held := g.held ++ [u] }) :
    Accounts z { cells with words := BitWords.setBit cells.words u }
      ((c', { g with held := g.held ++ [u] }) :: l) := by
  have hperm : (g.held ++ [u] ++ l.flatMap (·.2.held)).Perm
    (u :: (g.held ++ l.flatMap (·.2.held))) := by
    simp
  have hfree : u ∉ ((c, g) :: l).flatMap (·.2.held) := fun hmem => by
    simp [(h.test u).mpr hmem] at hbit
  have hlen : u < 64 * cells.words.length := by
    rw [h.length, ZoneShape.wordCount]
    omega
  refine ⟨forall_mem_cons.mpr ⟨hc, (forall_mem_cons.mp h.follows).2⟩,
    hperm.nodup_iff.mpr (nodup_cons.mpr ⟨hfree, h.nodup⟩), fun v => ?_, h.used, ?_⟩
  · rw [test_setBit hlen, Bool.or_eq_true, decide_eq_true_iff, h.test]
    exact mem_cons.symm.trans hperm.mem_iff.symm
  · exact (length_setBit ..).trans h.length

lemma clearBit (hheld : u ∈ g.held)
    (hc : c'.Follows (rule z) (Fulfils z) { g with held := g.held.erase u }) :
    Accounts z { cells with words := BitWords.clearBit cells.words u }
      ((c', { g with held := g.held.erase u }) :: l) := by
  have hperm : (g.held ++ l.flatMap (·.2.held)).Perm
    (u :: (g.held.erase u ++ l.flatMap (·.2.held))) :=
    (perm_cons_erase hheld).append_right _
  obtain ⟨hout, hnodup⟩ := nodup_cons.mp (hperm.nodup_iff.mp h.nodup)
  refine ⟨forall_mem_cons.mpr ⟨hc, (forall_mem_cons.mp h.follows).2⟩, hnodup,
    fun v => ?_, h.used, ?_⟩
  · rw [test_clearBit, Bool.and_eq_true, h.test, Bool.not_eq_true', decide_eq_false_iff_not]
    refine (and_congr_right fun _ => hperm.mem_iff).trans ⟨fun hv => ?_, fun hv => ?_⟩
    · exact (mem_cons.mp hv.2).resolve_left hv.1
    · exact ⟨fun heq => hout (heq ▸ hv), mem_cons_of_mem _ hv⟩
  · exact (length_clearBit ..).trans h.length

end Head

/-- One operation of a call. -/
theorem advance {o : ZoneOp} {f : o.Ans → ZoneCall} (h : Accounts z cells ((.call o f, g) :: l))
    (hclear : ∀ i current new, o = .casWord i current new → current ||| new = current →
      cells.words.getD i 0 = current) :
    ∃ g', Accounts z (o.exec cells).2 ((f (o.exec cells).1, g') :: l) := by
  have hcall := h.follows _ mem_cons_self
  cases o with
  | loadWord i =>
    refine ⟨g, h.recount (hcall _ fun u hu hi => ?_) rfl fun _ => id⟩
    subst hi
    exact (test_eq cells.words u).symm.trans ((h.test u).mpr (mem_append_left _ hu))
  | casWord i current new =>
    have hexec : cells.words.getD i 0 = current → (casWord i current new).exec cells =
        (true, { cells with words := cells.words.set i new }) := fun hcur => if_pos hcur
    obtain ⟨u, rfl, hu, ⟨hbit, rfl, hfalse, htrue⟩ | ⟨hheld, -, rfl, htrue⟩⟩ := hcall
    · by_cases hcur : cells.words.getD (u / 64) 0 = current
      · subst hcur
        rw [hexec rfl, set_or_mask]
        exact ⟨_, h.setBit hu ((test_eq _ u).trans hbit) htrue⟩
      · rw [show (casWord _ _ _).exec cells = (false, cells) from if_neg hcur]
        exact ⟨g, h.recount hfalse rfl fun _ => id⟩
    · obtain rfl := hclear _ _ _ rfl (by ext; grind)
      rw [hexec rfl, set_and_mask]
      exact ⟨_, h.clearBit hheld htrue⟩
  | fetchAddUsed n =>
    refine ⟨_, h.recount hcall rfl fun m hm => (congrArg (· + BitVec.ofNat 32 n) hm).trans ?_⟩
    rw [← BitVec.ofNat_add, Nat.add_right_comm]
  | fetchSubUsed n =>
    refine ⟨_, h.recount hcall.2 rfl fun m hm => (congrArg (· - BitVec.ofNat 32 n) hm).trans ?_⟩
    have hle : n ≤ g.counted := hcall.1
    rw [show g.counted + m = g.counted - n + m + n by omega, BitVec.ofNat_add,
      BitVec.add_sub_cancel]
  | loadUsed | loadPos => exact ⟨g, h.recount (hcall _) rfl fun _ => id⟩
  | storePos => exact ⟨g, h.recount hcall rfl fun _ => id⟩

/-- One call takes a step. -/
theorem replace {k : ℕ} {c c' : ZoneCall} (h : Accounts z cells l)
    (hk : (l.map Prod.fst)[k]? = some c)
    (hstep : ∀ g rest, Accounts z cells ((c, g) :: rest) →
      ∃ g', Accounts z cells' ((c', g') :: rest)) :
    ∃ l', l'.map Prod.fst = (l.map Prod.fst).set k c' ∧ Accounts z cells' l' := by
  rw [getElem?_map, Option.map_eq_some_iff] at hk
  obtain ⟨⟨c, g⟩, hk, rfl⟩ := hk
  obtain ⟨hlt, heq⟩ := List.getElem?_eq_some_iff.mp hk
  obtain ⟨g', h'⟩ := hstep g (l.eraseIdx k)
    (h.perm (heq ▸ (getElem_cons_eraseIdx_perm hlt).symm))
  exact ⟨l.set k (c', g'), map_set, h'.perm (set_perm_cons_eraseIdx hlt _).symm⟩

end Accounts

section Calls
variable {z : ZoneShape} {s : ZoneCalls}

lemma accounts_of_reach (h : (zoneCalls z).Reach (fun s a => s.clearsAtOnce a = true) s) :
    ∃ l : List (ZoneCall × Claim), l.map Prod.fst = s.calls ∧ Accounts z s.cells l := by
  refine System.Reach.invariant (I := fun s => ∃ l : List (ZoneCall × Claim),
    l.map Prod.fst = s.calls ∧ Accounts z s.cells l) ?_ ?_ h
  · rintro _ rfl
    refine ⟨[], rfl, by simp, by simp, fun u => ?_, rfl, by simp⟩
    rw [← mem_members, members_replicate_zero]
    simp
  · rintro s a t ⟨l, hl, hacc⟩ hg ht
    cases a with
    | beginAllocate count limit =>
      cases ht
      have hnew : Accounts z s.cells ((callAllocate z count limit, {}) :: l) :=
        ⟨forall_mem_cons.mpr ⟨follows_callAllocate count limit, hacc.follows⟩, hacc.nodup,
          hacc.test, hacc.used.trans (by simp), hacc.length⟩
      exact ⟨_, by simp [hl], hnew.perm (perm_append_singleton _ l).symm⟩
    | beginRollback k =>
      simp only [zoneCalls, ZoneCalls.step] at ht
      split at ht
      · next r hk =>
        cases ht
        rw [← hl] at hk ⊢
        refine hacc.replace hk fun g rest h => ⟨g, h.recount ?_ rfl fun _ => id⟩
        exact follows_callRollback (h.follows _ mem_cons_self)
      · cases ht
    | advance k =>
      simp only [zoneCalls, ZoneCalls.step] at ht
      split at ht
      · next o f hk =>
        cases ht
        simp only [ZoneCalls.clearsAtOnce, hk] at hg
        rw [← hl] at hk ⊢
        refine hacc.replace hk fun g rest h => h.advance fun i current new ho heq => ?_
        subst ho
        simpa [heq] using hg
      · cases ht

/-- The claims of calls that have returned are the live ranges. -/
theorem Accounts.live_bits (cells : ZoneCells) {l : List (ZoneCall × Claim)}
    (h : ∀ x ∈ l, ∃ r, x.1 = .ret r ∧ Fulfils z r x.2) :
    (⟨cells, l.map Prod.fst⟩ : ZoneCalls).live.flatMap AllocatedRange.bits =
        l.flatMap (·.2.held) ∧
      (l.map (·.2.counted)).sum = (l.flatMap (·.2.held)).length := by
  induction l with
  | nil => exact ⟨rfl, rfl⟩
  | cons x l ih =>
    obtain ⟨⟨r, hx, hr⟩, hl⟩ := forall_mem_cons.mp h
    obtain ⟨hbits, hcount⟩ := ih hl
    obtain ⟨c, g⟩ := x
    subst hx
    cases r with
    | allocated r =>
      cases r with
      | none =>
        cases hr
        exact ⟨hbits, (Nat.zero_add _).trans hcount⟩
      | some r =>
        obtain ⟨rfl, -⟩ := hr
        refine ⟨congrArg (r.bits ++ ·) hbits, ?_⟩
        simp [hcount, AllocatedRange.bits]
    | rolledBack =>
      obtain ⟨-, rfl⟩ := hr
      exact ⟨hbits, (Nat.zero_add _).trans hcount⟩

/-- In every run in which each exchange that clears a bit finds the word as it was loaded: once
all calls have returned, the set bits are those of the ranges that were returned and not rolled
back, these are disjoint, every rollback has returned true, and the used count is the number of
set bits. -/
theorem zone_bits_conserved (h : (zoneCalls z).Reach (fun s a => s.clearsAtOnce a = true) s)
    (hdone : ∀ c ∈ s.calls, c.result?.isSome = true) :
    (s.live.flatMap AllocatedRange.bits).Nodup ∧
      members s.cells.words = (s.live.flatMap AllocatedRange.bits).toFinset ∧
      (∀ r ok, .rolledBack r ok ∈ s.results → ok = true) ∧
      s.cells.usedCount.toNat = countSet s.cells.words := by
  obtain ⟨l, hl, hacc⟩ := accounts_of_reach h
  obtain ⟨cells, calls⟩ := s
  subst hl
  have hclaims : ∀ x ∈ l, ∃ r, x.1 = .ret r ∧ Fulfils z r x.2 := by
    rintro ⟨_ | _, g⟩ hx
    · exact ⟨_, rfl, hacc.follows _ hx⟩
    · cases hdone _ (mem_map_of_mem hx)
  obtain ⟨hbits, hcount⟩ := Accounts.live_bits cells hclaims
  rw [hbits]
  have hmembers : members cells.words = (l.flatMap (·.2.held)).toFinset := by
    ext u
    rw [mem_members, hacc.test, List.mem_toFinset]
  refine ⟨hacc.nodup, hmembers, fun r ok hmem => ?_, ?_⟩
  · obtain ⟨c, hc, hres⟩ := mem_filterMap.mp hmem
    obtain ⟨x, hx, rfl⟩ := mem_map.mp hc
    obtain ⟨r', hr', hf⟩ := hclaims x hx
    rw [hr'] at hres
    cases hres
    exact hf.1
  · have hcard : countSet cells.words = (l.flatMap (·.2.held)).length := by
      rw [← card_members, hmembers, toFinset_card_of_nodup hacc.nodup]
    have hle : countSet cells.words ≤ 64 * cells.words.length :=
      card_members cells.words ▸ (Finset.card_filter_le _ _).trans_eq (Finset.card_range _)
    have hcap := z.capacity_lt
    rw [hacc.length, ZoneShape.wordCount] at hle
    rw [hacc.used, hcount, ← hcard, BitVec.toNat_ofNat, Nat.mod_eq_of_lt (by omega)]

open CallAction in
/-- A range is allocated and rolled back behind another allocation. -/
def rollbackAfter : List CallAction :=
  [beginAllocate 1 0] ++ replicate 8 (advance 0) ++ [beginAllocate 1 0] ++
  replicate 8 (advance 1) ++ [beginRollback 0] ++ replicate 4 (advance 0)

theorem zone_bits_conserved_rolled_back : ∃ s, (zoneCalls ⟨64, true, by decide⟩).Reach
      (fun s a => s.clearsAtOnce a = true) s ∧ s.live = [⟨1, 1⟩] ∧
      s.results = [.rolledBack ⟨0, 1⟩ true, .allocated (some ⟨1, 1⟩)] ∧
      s.cells.usedCount.toNat = countSet s.cells.words := by
  have hreach := System.reach_runGuarded (S := zoneCalls ⟨64, true, by decide⟩)
    (g := ZoneCalls.clearsAtOnce) rollbackAfter rfl
  exact ⟨_, hreach, by decide +kernel, by decide +kernel,
    (zone_bits_conserved hreach (by decide +kernel)).2.2.2⟩

open CallAction in
/-- Another allocation takes a bit of the same word between the load and the exchange of a
rollback. The rollback returns false and its bit stays set. -/
def rollbackDisturbed : List CallAction :=
  [beginAllocate 1 0] ++ replicate 8 (advance 0) ++ [beginRollback 0] ++ replicate 2 (advance 0) ++
    [beginAllocate 1 0] ++ replicate 8 (advance 1) ++ [advance 0]

theorem disturbed_rollback_leaks : ∃ s, (zoneCalls ⟨64, true, by decide⟩).Reach System.Free s ∧
    (∀ c ∈ s.calls, c.result?.isSome = true) ∧ .rolledBack ⟨0, 1⟩ false ∈ s.results ∧
    s.live = [⟨1, 1⟩] ∧ members s.cells.words = {0, 1} :=
  ⟨_, System.reach_run rollbackDisturbed rfl, by decide +kernel⟩

end Calls

end CrowDB.DiskDb
