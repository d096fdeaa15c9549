import CrowDB.DiskDb.Zone
import CrowDB.Lib.Prog

/-!
# Allocation in the words of a zone

`allocate` and `rollback_allocate` as programs of atomic word operations. The search
rotates over the words, tries every zero bit of a word as the start of a range, and
claims a range bit by bit with one compare-and-exchange each; what was claimed is
given back bit by bit when one of them fails.
-/
namespace CrowDB.DiskDb
open Lib BitWords

/-- What `allocate` reads of a zone that no call changes. The capacity is below `2 ^ 31`, so
that the sums of the source stay below `2 ^ 32`. -/
structure ZoneShape where
  unitCapacity : ℕ
  healthy : Bool
  capacity_lt : unitCapacity < 2 ^ 31

def ZoneShape.wordCount (z : ZoneShape) : ℕ := (z.unitCapacity + 63) / 64

inductive ZoneOp
  | loadWord (index : ℕ)
  | casWord (index : ℕ) (current new : BitVec 64)
  | loadUsed
  | fetchAddUsed (n : ℕ)
  | fetchSubUsed (n : ℕ)
  | loadPos
  | storePos (index : ℕ)

abbrev ZoneOp.Ans : ZoneOp → Type
  | loadWord _ => BitVec 64
  | casWord .. => Bool
  | loadUsed => BitVec 32
  | loadPos => ℕ
  | _ => Unit

/-- The atomics of a zone. -/
structure ZoneCells where
  words : Words
  usedCount : BitVec 32
  lastPos64 : ℕ
  deriving DecidableEq

def ZoneOp.exec : (o : ZoneOp) → ZoneCells → o.Ans × ZoneCells
  | loadWord i, s => (s.words.getD i 0, s)
  | casWord i current new, s =>
    if s.words.getD i 0 = current then (true, { s with words := s.words.set i new }) else (false, s)
  | loadUsed, s => (s.usedCount, s)
  | fetchAddUsed n, s => ((), { s with usedCount := s.usedCount + BitVec.ofNat 32 n })
  | fetchSubUsed n, s => ((), { s with usedCount := s.usedCount - BitVec.ofNat 32 n })
  | loadPos, s => (s.lastPos64, s)
  | storePos i, s => ((), { s with lastPos64 := i })

abbrev ZoneProg := Prog ZoneOp ZoneOp.Ans

open Prog ZoneOp

/-- `cas_bit`: one attempt. -/
def casBit (bit : ℕ) (set : Bool) : ZoneProg Bool := do
  let current ← perform (loadWord (bit / 64))
  if set = (current &&& mask bit != 0) then return false
  else perform (casWord (bit / 64) current
    (if set then current ||| mask bit else current &&& ~~~mask bit))

/-- The loops before the compare-and-exchanges: whether all bits have the wanted value. -/
def bitsAre (set : Bool) (bit : ℕ) : ℕ → ZoneProg Bool
  | 0 => return true
  | n + 1 => do
    let word ← perform (loadWord (bit / 64))
    if (word &&& mask bit != 0) = set then bitsAre set (bit + 1) n else return false

/-- One compare-and-exchange per bit; the position of the first that fails. -/
def casBits (set : Bool) (start i : ℕ) : ℕ → ZoneProg (Option ℕ)
  | 0 => return none
  | n + 1 => do
    if ← casBit (start + i) set then casBits set start (i + 1) n else return some i

/-- The undo loop, which does not look at its results. -/
def undoBits (set : Bool) : List ℕ → ZoneProg Unit
  | [] => return ()
  | bit :: bits => do
    let _ ← casBit bit set
    undoBits set bits

/-- One pass of `try_claim_range`: whether the range was claimed, or the bit that was lost. -/
def claimOnce (start count : ℕ) : ZoneProg (Except ℕ Bool) := do
  if ← bitsAre false start count then
    match ← casBits true start 0 count with
    | none => return .ok true
    | some i =>
      undoBits false (List.range' start i)
      return .error (start + i)
  else return .ok false

/-- `try_claim_range`, with `cas_retry_limit - total_retries` retries left. -/
def tryClaimRange (start count : ℕ) : ℕ → ZoneProg (Bool × ℕ)
  | 0 => do return ((← claimOnce start count).toOption.getD false, 0)
  | left + 1 => do
    match ← claimOnce start count with
    | .ok claimed => return (claimed, left + 1)
    | .error bit =>
      if left = 0 then return (false, left)
      else if ← bitsAre false bit 1 then tryClaimRange start count left
      else return (false, left)

def trailingOnes (word : BitVec 64) : ℕ := ((List.range 64).find? (!word.getLsbD ·)).getD 64

section
variable (z : ZoneShape)

/-- The loop of `claim_in_word` over the zero bits; each round sets one more bit of `scan`, so
that 64 rounds are enough. -/
def scanWord (base count : ℕ) : ℕ → BitVec 64 → ℕ → ZoneProg (Option ℕ × ℕ)
  | 0, _, left => return (none, left)
  | rounds + 1, scan, left =>
    let pos := trailingOnes scan
    if 64 ≤ pos ∨ z.unitCapacity < base + pos + count then return (none, left)
    else do
      let (claimed, left) ← tryClaimRange (base + pos) count left
      if claimed then return (some (base + pos), left)
      else if scan ||| BitVec.twoPow 64 pos = BitVec.allOnes 64 then return (none, left)
      else scanWord base count rounds (scan ||| BitVec.twoPow 64 pos) left

def claimInWord (index count left : ℕ) : ZoneProg (Option ℕ × ℕ) := do
  let word ← perform (loadWord index)
  if word = BitVec.allOnes 64 then return (none, left)
  else scanWord z (index * 64) count 64 word left

/-- The loop of `allocate` over the words, `n` of them left. -/
def searchWords (start count : ℕ) (i : ℕ) : ℕ → ℕ → ZoneProg (Option AllocatedRange)
  | 0, _ => return none
  | n + 1, left => do
    let index := (start + i) % z.wordCount
    match ← claimInWord z index count left with
    | (some offset, _) =>
      perform (storePos index)
      perform (fetchAddUsed count)
      return some ⟨offset, count⟩
    | (none, left) => searchWords start count (i + 1) n left

def allocate (count casRetryLimit : ℕ) : ZoneProg (Option AllocatedRange) := do
  let used ← perform loadUsed
  if !z.healthy ∨ z.unitCapacity ≤ used.toNat ∨ count = 0 ∨ z.unitCapacity < count ∨
      z.wordCount = 0 then return none
  else
    let pos ← perform loadPos
    searchWords z (pos % z.wordCount) count 0 z.wordCount casRetryLimit

def rollbackAllocate (r : AllocatedRange) : ZoneProg Bool := do
  if r.unitCount = 0 ∨ z.unitCapacity < r.unitOffset + r.unitCount then return false
  else if ← bitsAre true r.unitOffset r.unitCount then
    match ← casBits false r.unitOffset 0 r.unitCount with
    | none =>
      perform (fetchSubUsed r.unitCount)
      return true
    | some i =>
      undoBits true (List.range' r.unitOffset i)
      return false
  else return false

end

section Alone
variable {z : ZoneShape} {s : ZoneCells} {bit start count left : ℕ}

/-- All bits of the range have the value `set`. -/
def RangeIs (set : Bool) (ws : Words) (start count : ℕ) : Prop :=
  ∀ j < count, test ws (start + j) = set

instance (set : Bool) (ws : Words) (start count : ℕ) : Decidable (RangeIs set ws start count) :=
  inferInstanceAs (Decidable (∀ j < count, _))

def fillBits (ws : Words) (start count : ℕ) : Words := (List.range' start count).foldl setBit ws

lemma test_fillBits {ws : Words} (h : start + count ≤ 64 * ws.length) (j : ℕ) :
    test (fillBits ws start count) j =
      (decide (start ≤ j ∧ j < start + count) || test ws j) := by
  induction count generalizing start ws with
  | zero => simp [fillBits]
  | succ n ih =>
    have hlen : start + 1 + n ≤ 64 * (setBit ws start).length := by
      rw [length_setBit]
      omega
    rw [fillBits, List.range'_succ, List.foldl_cons, ← fillBits, ih hlen, test_setBit (by omega),
      ← Bool.or_assoc, ← Bool.decide_or]
    congr 2
    simp only [eq_iff_iff]
    omega

lemma alone_bitsAre (set : Bool) (n : ℕ) :
    solo exec (bitsAre set bit n) s = (decide (RangeIs set s.words bit n), s) := by
  induction n generalizing bit with
  | zero => simp [bitsAre, RangeIs]
  | succ n ih =>
    have hall : RangeIs set s.words bit (n + 1) ↔
        test s.words bit = set ∧ RangeIs set s.words (bit + 1) n := by
      rw [RangeIs, Nat.forall_lt_succ_left]
      simp [RangeIs, Nat.add_assoc, Nat.add_comm 1]
    by_cases h : test s.words bit = set
    · refine (congrArg (solo exec · s) (if_pos h)).trans ?_
      simp [ih, hall, h]
    · refine (congrArg (solo exec · s) (if_neg h)).trans ?_
      simp [hall, h]

lemma alone_casBit (h : test s.words bit = false) :
    solo exec (casBit bit true) s = (true, { s with words := setBit s.words bit }) := by
  have hbit : ¬ true = test s.words bit := by simp [h]
  refine (congrArg (solo exec · s) (if_neg hbit)).trans ?_
  simp only [solo_perform, exec, if_true, set_or_mask]

lemma alone_casBits {i n : ℕ} (hlen : start + i + n ≤ 64 * s.words.length)
    (h : RangeIs false s.words (start + i) n) :
    solo exec (casBits true start i n) s =
      (none, { s with words := fillBits s.words (start + i) n }) := by
  induction n generalizing i s with
  | zero => rfl
  | succ n ih =>
    have hbit : test s.words (start + i) = false := h 0 (by omega)
    have hrest : RangeIs false (setBit s.words (start + i)) (start + (i + 1)) n := by
      intro j hj
      rw [test_setBit (by omega)]
      have := h (j + 1) (by omega)
      simp only [Bool.or_eq_false_iff, decide_eq_false_iff_not]
      exact ⟨by omega, by rw [← this]; congr 1; omega⟩
    simp only [casBits, solo_bind, alone_casBit hbit]
    exact ih (by simp; omega) hrest

/-- Undisturbed, a range is claimed at once or left as it is. -/
theorem alone_tryClaimRange (hlen : start + count ≤ 64 * s.words.length) (left : ℕ) :
    solo exec (tryClaimRange start count left) s =
      if RangeIs false s.words start count then
        ((true, left), { s with words := fillBits s.words start count })
      else ((false, left), s) := by
  have honce : solo exec (claimOnce start count) s =
      if RangeIs false s.words start count then
        (.ok true, { s with words := fillBits s.words start count }) else (.ok false, s) := by
    simp only [claimOnce, solo_bind, alone_bitsAre]
    by_cases h : RangeIs false s.words start count
    · simp [h, alone_casBits (i := 0) hlen h]
    · simp [h]
  by_cases h : RangeIs false s.words start count <;> cases left <;>
    simp [tryClaimRange, honce, h, Except.toOption]

lemma trailingOnes_le {w : BitVec 64} {pos : ℕ} (hpos : pos < 64) (h : w.getLsbD pos = false) :
    trailingOnes w ≤ pos := by
  unfold trailingOnes
  cases hf : (List.range 64).find? (!w.getLsbD ·) with
  | none => simpa [h] using List.find?_range_eq_none.mp hf pos hpos
  | some i =>
    by_contra hlt
    simpa [h] using (List.find?_range_eq_some.mp hf).2.2 pos (Nat.lt_of_not_le hlt)

lemma getLsbD_trailingOnes {w : BitVec 64} (h : trailingOnes w < 64) :
    w.getLsbD (trailingOnes w) = false := by
  unfold trailingOnes at h ⊢
  cases hf : (List.range 64).find? (!w.getLsbD ·) with
  | none => simp [hf] at h
  | some i => simpa using (List.find?_range_eq_some.mp hf).1

/-- What a search may leave: the range it has claimed, or everything as it was when none of
the starts that it was asked to look at has a clear range. -/
def Outcome (z : ZoneShape) (count : ℕ) (s : ZoneCells) (asked : ℕ → Prop) :
    Option ℕ → ZoneCells → Prop
  | some start, t => start + count ≤ z.unitCapacity ∧ RangeIs false s.words start count ∧
    t = { s with words := fillBits s.words start count }
  | none, t => t = s ∧ ∀ start, asked start → start + count ≤ z.unitCapacity →
    ¬ RangeIs false s.words start count

lemma Outcome.mono {asked asked' : ℕ → Prop} {r : Option ℕ} {t : ZoneCells}
    (h : Outcome z count s asked r t) (hsub : ∀ start, asked' start →
      start + count ≤ z.unitCapacity → RangeIs false s.words start count → asked start) :
    Outcome z count s asked' r t := by
  cases r with
  | some start => exact h
  | none => exact ⟨h.1, fun b hb hle hclear => h.2 b (hsub b hb hle hclear) hle hclear⟩

section
variable (hlen : z.unitCapacity ≤ 64 * s.words.length)
include hlen

/-- Every round sets the first zero bit of `scan`, so that the rounds suffice for its zero bits. -/
theorem alone_scanWord {base rounds : ℕ} {scan : BitVec 64}
    (hrounds : 64 ≤ trailingOnes scan + rounds) (left : ℕ) :
    Outcome z count s (fun start => ∃ pos < 64, start = base + pos ∧ scan.getLsbD pos = false)
      ((scanWord z base count rounds scan left).solo exec s).1.1
      ((scanWord z base count rounds scan left).solo exec s).2 := by
  induction rounds generalizing scan left with
  | zero =>
    refine ⟨rfl, ?_⟩
    rintro _ ⟨pos, hpos, rfl, hzero⟩
    have := trailingOnes_le hpos hzero
    omega
  | succ rounds ih =>
    simp only [scanWord]
    split
    · next hend =>
      refine ⟨rfl, ?_⟩
      rintro _ ⟨pos, hpos, rfl, hzero⟩ hle
      have := trailingOnes_le hpos hzero
      omega
    · next hgo =>
      have hfit : base + trailingOnes scan + count ≤ 64 * s.words.length := by omega
      have hclaim := alone_tryClaimRange hfit left
      by_cases hclear : RangeIs false s.words (base + trailingOnes scan) count
      · rw [if_pos hclear] at hclaim
        simp only [solo_bind, hclaim]
        exact ⟨by omega, hclear, rfl⟩
      · rw [if_neg hclear] at hclaim
        simp only [solo_bind, hclaim, Bool.false_eq_true, if_false]
        set scan' := scan ||| BitVec.twoPow 64 (trailingOnes scan) with hscan'
        have hbit : ∀ pos < 64, scan'.getLsbD pos =
            (scan.getLsbD pos || decide (pos = trailingOnes scan)) := by
          intro pos hpos
          simp [hscan', hpos]
        have hnext : trailingOnes scan < trailingOnes scan' := by
          by_contra hle
          have hzero := getLsbD_trailingOnes (w := scan') (by omega)
          rw [hbit _ (by omega), Bool.or_eq_false_iff, decide_eq_false_iff_not] at hzero
          have := trailingOnes_le (by omega) hzero.1
          omega
        -- the start that has just failed is the only one that the rest is not asked about
        refine Outcome.mono (?_ : Outcome z count s
          (fun start => ∃ pos < 64, start = base + pos ∧ scan'.getLsbD pos = false) _ _) ?_
        · split
          · next hfull =>
            refine ⟨rfl, ?_⟩
            rintro _ ⟨pos, hpos, rfl, hzero⟩
            rw [hfull, BitVec.getLsbD_allOnes, decide_eq_false_iff_not] at hzero
            exact absurd hpos hzero
          · exact ih (by omega) left
        · rintro _ ⟨pos, hpos, rfl, hzero⟩ - hrange
          refine ⟨pos, hpos, rfl, ?_⟩
          rw [hbit pos hpos, hzero, Bool.false_or, decide_eq_false_iff_not]
          rintro rfl
          exact hclear hrange

/-- A clear range starts at a zero bit of its first word. -/
theorem alone_claimInWord (hcount : 0 < count) (index left : ℕ) :
    Outcome z count s (fun start => start / 64 = index)
      ((claimInWord z index count left).solo exec s).1.1
      ((claimInWord z index count left).solo exec s).2 := by
  have hword : ∀ start, start / 64 = index → RangeIs false s.words start count →
      (s.words.getD index 0).getLsbD (start % 64) = false := by
    rintro start rfl hclear
    rw [← test_eq]
    exact hclear 0 hcount
  have hrun : (claimInWord z index count left).solo exec s =
      (if s.words.getD index 0 = BitVec.allOnes 64 then pure (none, left)
        else scanWord z (index * 64) count 64 (s.words.getD index 0) left).solo exec s := rfl
  rw [hrun]
  split
  · next hfull =>
    refine ⟨rfl, fun start hstart _ hclear => ?_⟩
    have hzero := hword start hstart hclear
    rw [hfull, BitVec.getLsbD_allOnes, decide_eq_false_iff_not] at hzero
    exact hzero (Nat.mod_lt _ (by decide))
  · refine (alone_scanWord hlen (by omega) left).mono fun start hstart _ hclear => ?_
    exact ⟨start % 64, Nat.mod_lt _ (by decide), by omega, hword start hstart hclear⟩

lemma alone_searchWords (hcount : 0 < count) (start i n left : ℕ) :
    let (r, t) := (searchWords z start count i n left).solo exec s
    (∀ range, r = some range → range.unitCount = count ∧
      range.unitOffset + count ≤ z.unitCapacity ∧ RangeIs false s.words range.unitOffset count ∧
      t.words = fillBits s.words range.unitOffset count ∧
      t.usedCount = s.usedCount + BitVec.ofNat 32 count) ∧
    (r = none → t = s ∧ ∀ k < n, ∀ start', start' / 64 = (start + (i + k)) % z.wordCount →
      start' + count ≤ z.unitCapacity → ¬ RangeIs false s.words start' count) := by
  induction n generalizing i left with
  | zero => exact ⟨nofun, fun _ => ⟨rfl, fun k hk => by omega⟩⟩
  | succ n ih =>
    have hin := alone_claimInWord hlen hcount ((start + i) % z.wordCount) left
    simp only [searchWords, solo_bind]
    generalize (claimInWord z ((start + i) % z.wordCount) count left).solo exec s = out at hin
    obtain ⟨⟨_ | offset, left'⟩, t⟩ := out
    · obtain ⟨rfl, hmiss⟩ := hin
      obtain ⟨hsome, hnone⟩ := ih (i + 1) left'
      refine ⟨hsome, fun hr => ⟨(hnone hr).1, fun k hk => ?_⟩⟩
      cases k with
      | zero => exact hmiss
      | succ k =>
        rw [show i + (k + 1) = i + 1 + k by omega]
        exact (hnone hr).2 k (by omega)
    · obtain ⟨hle, hclear, rfl⟩ := hin
      refine ⟨fun range hr => ?_, nofun⟩
      cases hr
      exact ⟨rfl, hle, hclear, rfl, rfl⟩

end

/-- A zone as `allocate` expects it: no bit beyond the capacity, and a true used count. -/
structure ZoneCells.Ok (z : ZoneShape) (s : ZoneCells) : Prop where
  length : s.words.length = z.wordCount
  inside : ∀ u ∈ members s.words, u < z.unitCapacity
  used : s.usedCount.toNat = countSet s.words

lemma rangeIs_false_iff {ws : Words} : RangeIs false ws start count ↔
    Disjoint (Finset.Ico start (start + count)) (members ws) := by
  simp only [Finset.disjoint_left, Finset.mem_Ico, mem_members, Bool.not_eq_true]
  refine ⟨fun h u hu => ?_, fun h j hj => h ⟨by omega, by omega⟩⟩
  obtain ⟨j, rfl⟩ := Nat.exists_eq_add_of_le hu.1
  exact h j (by omega)

/-- A zone with a clear unit does not count as full. -/
theorem ZoneCells.Ok.used_lt (h : s.Ok z) (hlt : start < z.unitCapacity)
    (hfree : start ∉ members s.words) : s.usedCount.toNat < z.unitCapacity := by
  have hsub : members s.words ⊂ Finset.range z.unitCapacity := by
    refine Finset.ssubset_iff.mpr ⟨start, hfree, Finset.insert_subset (by simpa using hlt) ?_⟩
    exact fun u hu => Finset.mem_range.mpr (h.inside u hu)
  simpa [h.used, card_members] using Finset.card_lt_card hsub

/-- An undisturbed `allocate` of a healthy zone finds a range exactly if there is one, and
sets its bits only. -/
theorem allocate_complete (z : ZoneShape) (s : ZoneCells) (count casRetryLimit : ℕ)
    (hz : z.healthy = true) (hs : s.Ok z) (hcount : 1 ≤ count) :
    let out := (allocate z count casRetryLimit).solo exec s
    (out.1.isSome = true ↔ ∃ start, start + count ≤ z.unitCapacity ∧
      Disjoint (Finset.Ico start (start + count)) (members s.words)) ∧
    (out.1 = none → out.2 = s) ∧
    ∀ range, out.1 = some range → range.unitCount = count ∧
      range.unitOffset + count ≤ z.unitCapacity ∧
      Disjoint (Finset.Ico range.unitOffset (range.unitOffset + count)) (members s.words) ∧
      members out.2.words =
        members s.words ∪ Finset.Ico range.unitOffset (range.unitOffset + count) := by
  have hlen : z.unitCapacity ≤ 64 * s.words.length := by
    rw [hs.length, ZoneShape.wordCount]
    omega
  simp only [← rangeIs_false_iff]
  by_cases hstop : !z.healthy ∨ z.unitCapacity ≤ s.usedCount.toNat ∨ count = 0 ∨
      z.unitCapacity < count ∨ z.wordCount = 0
  · rw [show (allocate z count casRetryLimit).solo exec s = (none, s) from
      congrArg (solo exec · s) (if_pos hstop)]
    refine ⟨⟨nofun, ?_⟩, fun _ => rfl, nofun⟩
    rintro ⟨start, hle, hclear⟩
    have hfree : start ∉ members s.words := by simpa [mem_members] using hclear 0 hcount
    have := hs.used_lt (by omega) hfree
    simp only [hz, Bool.not_true, Bool.false_eq_true, false_or, ZoneShape.wordCount] at hstop
    omega
  · have hrun : (allocate z count casRetryLimit).solo exec s = (searchWords z
        (s.lastPos64 % z.wordCount) count 0 z.wordCount casRetryLimit).solo exec s :=
      (congrArg (solo exec · s) (if_neg hstop)).trans rfl
    rw [hrun]
    have hsearch := alone_searchWords hlen hcount (s.lastPos64 % z.wordCount) 0 z.wordCount
      casRetryLimit
    generalize (searchWords z _ count 0 _ casRetryLimit).solo exec s = out at hsearch
    obtain ⟨r, t⟩ := out
    obtain ⟨hsome, hnone⟩ := hsearch
    refine ⟨⟨fun hr => ?_, fun ⟨start, hle, hclear⟩ => ?_⟩, fun hr => (hnone hr).1,
      fun range hr => ?_⟩
    · obtain ⟨range, rfl⟩ := Option.isSome_iff_exists.mp hr
      obtain ⟨-, hle, hclear, -⟩ := hsome range rfl
      exact ⟨_, hle, hclear⟩
    · -- the rotation reaches the word of every start
      by_contra hr
      have hword : start / 64 < z.wordCount := by
        rw [ZoneShape.wordCount]
        omega
      have hpos := Nat.mod_lt s.lastPos64 (Nat.zero_lt_of_lt hword)
      generalize s.lastPos64 % z.wordCount = pos at hpos hnone
      refine (hnone (by simpa using hr)).2 (if pos ≤ start / 64 then start / 64 - pos
        else start / 64 + z.wordCount - pos) (by split <;> omega) start ?_ hle hclear
      split
      · rw [show pos + (0 + (start / 64 - pos)) = start / 64 by omega, Nat.mod_eq_of_lt hword]
      · rw [show pos + (0 + (start / 64 + z.wordCount - pos)) = start / 64 + z.wordCount by omega,
          Nat.add_mod_right, Nat.mod_eq_of_lt hword]
    · obtain ⟨hc, hle, hclear, hwords, -⟩ := hsome range hr
      refine ⟨hc, hle, hclear, ?_⟩
      ext u
      simp [hwords, mem_members, test_fillBits (hle.trans hlen), or_comm]

theorem allocate_complete_two_of_three :
    ((allocate ⟨3, true, by decide⟩ 2 0).solo exec ⟨[1], 1, 0⟩).1.isSome = true :=
  (allocate_complete _ _ 2 0 rfl ⟨rfl, by decide, by decide⟩ (by decide)).1.mpr
    ⟨1, by decide, by decide⟩

/-- A zone that is not healthy has a clear unit and allocates nothing. -/
theorem allocate_unhealthy_none :
    (⟨[0], 0, 0⟩ : ZoneCells).Ok ⟨1, false, by decide⟩ ∧
      Disjoint (Finset.Ico 0 (0 + 1)) (members [0]) ∧
      ((allocate ⟨1, false, by decide⟩ 1 0).solo exec ⟨[0], 0, 0⟩).1 = none :=
  ⟨⟨rfl, by decide, by decide⟩, by decide, rfl⟩

end Alone

end CrowDB.DiskDb
