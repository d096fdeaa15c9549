import CrowDB.Kv.Batch
import CrowDB.Lib.Scan
import CrowDB.Lib.Transition

/-!
# Scanning the log

A replica answers one page of a journal scan from its accepted entries: it decodes the
batches slot by slot, keeps the operations with a matching key and stops after `limit` of
them. The client asks for page after page, each time from the slot behind the last
operation it got.
-/
namespace CrowDB.Kv
open Lib Paxos List Option

structure JournalOp where
  key : Bytes
  value : Bytes
  isDelete : Bool
  slot : ℕ
  deriving DecidableEq, Repr

/-- Saturating successor of a 64-bit slot. -/
def slotSucc (slot : ℕ) : ℕ := min (slot + 1) (2 ^ 64 - 1)

/-! ## One page -/

/-- What a replica has when it answers a page. The trim point is read twice: `trimSlot` by
the check of the request and `iterTrimSlot` by the iteration. -/
structure ReplicaView where
  readSlot : ℕ
  trimSlot : ℕ
  iterTrimSlot : ℕ
  slots : ℕ → Option Bytes

def ReplicaView.acceptedIterRange (v : ReplicaView) (startSlot endSlotExclusive : ℕ) :
    List (ℕ × Bytes) :=
  let start := max startSlot v.iterTrimSlot
  (List.range' start (endSlotExclusive - start)).filterMap fun slot =>
    (v.slots slot).map fun payload => (slot, payload)

structure Page where
  ops : List JournalOp := []
  truncated : Bool := false
  lastOpSlot : ℕ := 0
  deriving DecidableEq, Repr

def JournalOp.ofBatch (slot : ℕ) (o : BatchOp) : JournalOp :=
  match o.op with
  | .put value => ⟨o.key, value, false, slot⟩
  | .delete => ⟨o.key, [], true, slot⟩

/-- The loop over the operations of one slot; it ends when the page is full. -/
def emitBatch (keyPrefix : Bytes) (limit slot : ℕ) : Page → List BatchOp → Page
  | page, [] => page
  | page, o :: ops =>
    if keyPrefix ≠ [] ∧ ¬ keyPrefix <+: o.key then emitBatch keyPrefix limit slot page ops
    else
      let page := { page with ops := page.ops ++ [.ofBatch slot o], lastOpSlot := slot }
      if limit ≠ 0 ∧ limit ≤ page.ops.length then { page with truncated := true }
      else emitBatch keyPrefix limit slot page ops

/-- The loop over the slots; it ends when the page is full. -/
def emitEntries (keyPrefix : Bytes) (limit : ℕ) : Page → List (ℕ × Bytes) → Page
  | page, [] => page
  | page, (slot, payload) :: entries =>
    let page := emitBatch keyPrefix limit slot page (Batch.decode payload)
    if page.truncated then page else emitEntries keyPrefix limit page entries

inductive ReadMode
  | linearizable | minSlot
  deriving DecidableEq, Repr

inductive PageResponse
  | ok (page : Page) (readSlot : ℕ)
  | gcGap
  | notLeader
  deriving DecidableEq, Repr

/-- The upper end of a scan; a `maxSlot` of zero stands for none. -/
def effectiveMax (maxSlot readSlot : ℕ) : ℕ :=
  if maxSlot = 0 then readSlot else min maxSlot readSlot

def kvJournalScan (v : ReplicaView) (minSlot maxSlot : ℕ) (keyPrefix : Bytes) (limit : ℕ)
    (readMode : ReadMode) : PageResponse :=
  if readMode = .minSlot ∧ v.readSlot < minSlot then .notLeader
  else if minSlot < v.trimSlot then .gcGap
  else
    let last := effectiveMax maxSlot v.readSlot
    let firstSlot := max minSlot 1
    if last < firstSlot then .ok {} v.readSlot
    else
      let entries := v.acceptedIterRange firstSlot (slotSucc last)
      if entries.length ≠ last - firstSlot + 1 then .gcGap
      else .ok (emitEntries keyPrefix limit {} entries) v.readSlot

/-! ## The client -/

structure ScanRequest where
  minSlot : ℕ
  maxSlot : ℕ
  keyPrefix : Bytes
  limit : ℕ
  pageLimit : ℕ
  readMode : ReadMode
  deadline : Option ℕ

inductive ScanResult
  | outcome (ops : List JournalOp) (truncated : Bool) (readSlot : ℕ)
  | gcGap
  | failed
  deriving DecidableEq, Repr

structure ScanClient where
  allOps : List JournalOp := []
  pageMinSlot : ℕ
  page1ReadSlot : Option ℕ := none
  result : Option ScanResult := none
  deriving DecidableEq, Repr

/-- What happens to one attempt: some replica answers at some time, or the client is
redirected or loses the connection and tries again, or it gives up. -/
inductive ScanEvent
  | serve (v : ReplicaView) (now : ℕ)
  | retry
  | exhausted

/-- A page came back. -/
def takePage (req : ScanRequest) (s : ScanClient) (page : Page) (readSlot now : ℕ) : ScanClient :=
  let s := { s with
    page1ReadSlot := s.page1ReadSlot.or (some readSlot), allOps := s.allOps ++ page.ops }
  let reported := s.page1ReadSlot.getD 0
  if req.limit ≠ 0 ∧ req.limit ≤ s.allOps.length then
    { s with
      allOps := s.allOps.take req.limit
      result := some (.outcome (s.allOps.take req.limit) true reported) }
  else if page.truncated ∧ page.ops ≠ [] then
    if req.deadline.any (· ≤ now) then { s with result := some (.outcome s.allOps true reported) }
    else { s with pageMinSlot := slotSucc page.lastOpSlot }
  else { s with result := some (.outcome s.allOps false reported) }

def scanStep (req : ScanRequest) (s : ScanClient) (e : ScanEvent) : Option ScanClient :=
  if s.result.isSome then none
  else match e with
    | .serve v now =>
      match kvJournalScan v s.pageMinSlot req.maxSlot req.keyPrefix req.pageLimit req.readMode with
      | .ok page readSlot => some (takePage req s page readSlot now)
      | .gcGap => some { s with result := some .gcGap }
      | .notLeader => some s
    | .retry => some s
    | .exhausted => some { s with result := some .failed }

/-- The scan of a client whose own writes to the group go up to `writeSlotHighwater`. -/
def journalScan (req : ScanRequest) (writeSlotHighwater : ℕ) : System ScanClient ScanEvent :=
  let minSlotFloor := if req.readMode = .minSlot then writeSlotHighwater else 0
  ⟨fun s => s = { pageMinSlot := max req.minSlot minSlotFloor }, scanStep req⟩

/-! ## What a page holds -/

/-- The operations of a slot that a scan is after. -/
def slotOps (keyPrefix : Bytes) (slot : ℕ) (payload : Bytes) : List JournalOp :=
  ((Batch.decode payload).filter fun o => keyPrefix <+: o.key).map (.ofBatch slot)

def lastSlot (ops : List JournalOp) : ℕ := (ops.getLast?.map (·.slot)).getD 0

/-- The page that cuts a scan off after `limit` operations. -/
def cutPage (limit : ℕ) (ops : List JournalOp) : Page :=
  if limit ≠ 0 ∧ limit ≤ ops.length then ⟨ops.take limit, true, lastSlot (ops.take limit)⟩
  else ⟨ops, false, lastSlot ops⟩

section Emit
variable {keyPrefix : Bytes} {limit : ℕ}

lemma ofBatch_slot (slot : ℕ) (o : BatchOp) : (JournalOp.ofBatch slot o).slot = slot := by
  unfold JournalOp.ofBatch
  split <;> rfl

lemma lastSlot_concat (ops : List JournalOp) (o : JournalOp) :
    lastSlot (ops ++ [o]) = o.slot := by
  simp [lastSlot]

variable {ops : List JournalOp}

lemma cutPage_of_lt (h : limit ≠ 0 → ops.length < limit) :
    cutPage limit ops = ⟨ops, false, lastSlot ops⟩ :=
  if_neg fun hfull => absurd hfull.2 (not_le.mpr (h hfull.1))

lemma cutPage_append (h : limit ≠ 0 ∧ limit ≤ ops.length) (more : List JournalOp) :
    cutPage limit (ops ++ more) = cutPage limit ops := by
  have hmore : limit ≠ 0 ∧ limit ≤ (ops ++ more).length :=
    ⟨h.1, h.2.trans (by rw [length_append]; omega)⟩
  rw [cutPage, cutPage, if_pos hmore, if_pos h, take_append_of_le_length h.2]

lemma emitBatch_eq (slot : ℕ) (batch : List BatchOp) (h : limit ≠ 0 → ops.length < limit) :
    emitBatch keyPrefix limit slot ⟨ops, false, lastSlot ops⟩ batch = cutPage limit
      (ops ++ (batch.filter fun o => keyPrefix <+: o.key).map (.ofBatch slot)) := by
  induction batch generalizing ops with
  | nil => simp [emitBatch, cutPage_of_lt h]
  | cons o batch ih =>
    have hmatch : keyPrefix ≠ [] ∧ ¬ keyPrefix <+: o.key ↔ ¬ keyPrefix <+: o.key :=
      ⟨And.right, fun hno => ⟨fun hnil => hno (hnil ▸ nil_prefix), hno⟩⟩
    rw [emitBatch]
    simp only [hmatch]
    by_cases hp : keyPrefix <+: o.key
    · have hcons : ops ++ ((o :: batch).filter fun o => keyPrefix <+: o.key).map (.ofBatch slot) =
          ops ++ [.ofBatch slot o] ++
            (batch.filter fun o => keyPrefix <+: o.key).map (.ofBatch slot) := by
        simp [hp]
      rw [if_neg (not_not.mpr hp), hcons]
      split
      · next hfull =>
        have hlen : (ops ++ [JournalOp.ofBatch slot o]).length ≤ limit := by
          rw [length_append]
          exact h hfull.1
        rw [cutPage_append hfull, cutPage, if_pos hfull, take_of_length_le hlen,
          lastSlot_concat, ofBatch_slot]
      · next hroom =>
        have hroom : limit ≠ 0 → (ops ++ [JournalOp.ofBatch slot o]).length < limit :=
          fun hl => not_le.mp fun hle => hroom ⟨hl, hle⟩
        rw [← ih hroom, lastSlot_concat, ofBatch_slot]
    · rw [ih h]
      simp [hp]

/-- The page is the whole scan, cut off when it is full. -/
theorem emitEntries_eq (entries : List (ℕ × Bytes)) (h : limit ≠ 0 → ops.length < limit) :
    emitEntries keyPrefix limit ⟨ops, false, lastSlot ops⟩ entries = cutPage limit
      (ops ++ entries.flatMap fun x => slotOps keyPrefix x.1 x.2) := by
  induction entries generalizing ops with
  | nil => simp [emitEntries, cutPage_of_lt h]
  | cons entry _ ih =>
    obtain ⟨slot, payload⟩ := entry
    have hbatch : emitBatch keyPrefix limit slot ⟨ops, false, lastSlot ops⟩ (Batch.decode payload) =
        cutPage limit (ops ++ slotOps keyPrefix slot payload) := emitBatch_eq slot _ h
    rw [emitEntries, hbatch, flatMap_cons, ← append_assoc]
    by_cases hfull : limit ≠ 0 ∧ limit ≤ (ops ++ slotOps keyPrefix slot payload).length
    · have htruncated :
          (cutPage limit (ops ++ slotOps keyPrefix slot payload)).truncated = true := by
        rw [cutPage, if_pos hfull]
      simp only [htruncated, if_true, cutPage_append hfull]
    · have hroom : limit ≠ 0 → (ops ++ slotOps keyPrefix slot payload).length < limit :=
        fun hl => not_le.mp fun hle => hfull ⟨hl, hle⟩
      rw [← ih hroom, cutPage_of_lt hroom]
      rfl

end Emit

/-! ## The chosen log -/

variable {v : ReplicaView}

section Log
variable (log : ℕ → Bytes) (keyPrefix : Bytes)

/-- The operations a scan is after in the slots from `a` up to but not including `b`. -/
def opsIn (a b : ℕ) : List JournalOp :=
  (List.range' a (b - a)).flatMap fun slot => slotOps keyPrefix slot (log slot)

variable {log keyPrefix}

lemma slot_of_mem_slotOps {slot : ℕ} {payload : Bytes} {o : JournalOp}
    (h : o ∈ slotOps keyPrefix slot payload) : o.slot = slot := by
  obtain ⟨x, -, rfl⟩ := mem_map.mp h
  exact ofBatch_slot slot x

variable {a b : ℕ}

lemma slot_of_mem_opsIn {o : JournalOp} (h : o ∈ opsIn log keyPrefix a b) :
    a ≤ o.slot ∧ o.slot < b := by
  obtain ⟨slot, hslot, ho⟩ := mem_flatMap.mp h
  rw [slot_of_mem_slotOps ho]
  have := mem_range'_1.mp hslot
  omega

lemma opsIn_append {c : ℕ} (hab : a ≤ b) (hbc : b ≤ c) :
    opsIn log keyPrefix a b ++ opsIn log keyPrefix b c = opsIn log keyPrefix a c := by
  have hrange : range' a (b - a) ++ range' b (c - b) = range' a (c - a) := by
    have := range'_append_1 (s := a) (m := b - a) (n := c - b)
    rwa [Nat.add_sub_cancel' hab, show b - a + (c - b) = c - a by omega] at this
  rw [opsIn, opsIn, opsIn, ← flatMap_append, hrange]

lemma opsIn_of_le (h : b ≤ a) : opsIn log keyPrefix a b = [] := by
  rw [opsIn, Nat.sub_eq_zero_of_le h]
  rfl

lemma pairwise_opsIn (a b : ℕ) :
    (opsIn log keyPrefix a b).Pairwise fun x y => x.slot ≤ y.slot := by
  rw [opsIn, flatMap, pairwise_flatten]
  constructor
  · intro l hl
    obtain ⟨slot, -, rfl⟩ := mem_map.mp hl
    refine pairwise_of_forall_mem_list fun x hx y hy => ?_
    rw [slot_of_mem_slotOps hx, slot_of_mem_slotOps hy]
  · rw [pairwise_map]
    refine (pairwise_le_range').imp fun {m n} hmn x hx y hy => ?_
    rw [slot_of_mem_slotOps hx, slot_of_mem_slotOps hy]
    exact hmn

lemma filter_opsIn {c : ℕ} (hac : a ≤ c + 1) (hcb : c < b) :
    (opsIn log keyPrefix a b).filter (fun o => o.slot ≤ c) = opsIn log keyPrefix a (c + 1) := by
  rw [← opsIn_append hac hcb, filter_append, filter_eq_self.mpr, filter_eq_nil_iff.mpr, append_nil]
  · intro o ho
    have := (slot_of_mem_opsIn ho).1
    simp
    omega
  · intro o ho
    have := (slot_of_mem_opsIn ho).2
    exact decide_eq_true (by omega)

/-- The page limit falls between two operations of one slot. -/
def SplitsSlot (limit : ℕ) (ops : List JournalOp) : Prop :=
  limit ≠ 0 ∧ limit < ops.length ∧
    (ops.take limit).getLast?.map (·.slot) = (ops.drop limit).head?.map (·.slot)

instance (limit : ℕ) (ops : List JournalOp) : Decidable (SplitsSlot limit ops) :=
  inferInstanceAs (Decidable (_ ∧ _))

/-- A full page that splits no slot holds all slots up to its last one. -/
theorem cutPage_opsIn {limit : ℕ} (hsplit : ¬ SplitsSlot limit (opsIn log keyPrefix a b))
    (hfull : (cutPage limit (opsIn log keyPrefix a b)).truncated = true) :
    ∃ c, a ≤ c ∧ c < b ∧ opsIn log keyPrefix a (c + 1) ≠ [] ∧
      cutPage limit (opsIn log keyPrefix a b) = ⟨opsIn log keyPrefix a (c + 1), true, c⟩ := by
  unfold cutPage at hfull ⊢
  split at hfull
  · next hlimit =>
    rw [if_pos hlimit]
    cases hlast : ((opsIn log keyPrefix a b).take limit).getLast? with
    | none =>
      have hnil := getLast?_eq_none_iff.mp hlast
      have hlen := congrArg length hnil
      rw [length_take, min_eq_left hlimit.2] at hlen
      exact absurd hlen hlimit.1
    | some x =>
      have hx := slot_of_mem_opsIn (mem_of_mem_take (mem_of_mem_getLast? hlast))
      have htake := take_eq_filter (·.slot) (pairwise_opsIn a b) hlast fun y hy hxy => by
        refine hsplit ⟨hlimit.1, ?_, by rw [hlast, hy, map_some, map_some, hxy]⟩
        refine not_le.mp fun hle => ?_
        rw [drop_of_length_le hle] at hy
        cases hy
      rw [filter_opsIn (by omega) hx.2] at htake
      refine ⟨x.slot, hx.1, hx.2, ?_, ?_⟩
      · rintro hnil
        rw [htake, hnil] at hlast
        cases hlast
      · rw [lastSlot, hlast, htake]
        rfl
  · cases hfull

/-! ## Completeness -/

/-- The entries a replica has at or below its read slot are the chosen ones. -/
def ReplicaView.Faithful (log : ℕ → Bytes) (v : ReplicaView) : Prop :=
  ∀ slot ≤ v.readSlot, ∀ payload, v.slots slot = some payload → payload = log slot

/-- The slot cannot be read from the replica any more. -/
def ReplicaView.Reclaimed (v : ReplicaView) (slot : ℕ) : Prop :=
  slot < v.trimSlot ∨ slot < v.iterTrimSlot ∨ v.slots slot = none

lemma effectiveMax_le (maxSlot readSlot : ℕ) : effectiveMax maxSlot readSlot ≤ readSlot := by
  unfold effectiveMax
  split
  · exact le_rfl
  · exact min_le_right _ _

/-- When as many entries are found as the range has slots, they are the chosen ones of the
range and none of them is reclaimed. -/
theorem acceptedIterRange_eq (keyPrefix : Bytes) (hv : v.Faithful log) {first last : ℕ}
    (hle : first ≤ last) (hlast : last ≤ v.readSlot)
    (hlen : (v.acceptedIterRange first (slotSucc last)).length = last - first + 1) :
    (v.acceptedIterRange first (slotSucc last)).flatMap (fun x => slotOps keyPrefix x.1 x.2) =
      opsIn log keyPrefix first (last + 1) ∧ v.iterTrimSlot ≤ first ∧ last + 1 < 2 ^ 64 ∧
      ∀ slot, first ≤ slot → slot ≤ last → v.slots slot ≠ none := by
  have hbound := length_filterMap_le (fun slot => (v.slots slot).map fun p => (slot, p))
    (range' (max first v.iterTrimSlot) (slotSucc last - max first v.iterTrimSlot))
  rw [length_range'] at hbound
  unfold ReplicaView.acceptedIterRange at hlen ⊢
  unfold slotSucc at hlen hbound ⊢
  rw [hlen] at hbound
  have htrim : v.iterTrimSlot ≤ first := by omega
  have hsmall : last + 1 < 2 ^ 64 := by omega
  rw [max_eq_left htrim, min_eq_left (by omega)]
  have hsome : ∀ slot, first ≤ slot → slot ≤ last → v.slots slot = some (log slot) := by
    intro slot h1 h2
    have hall := filterMap_length_eq_length.mp
      (hlen.trans (by rw [length_range']; omega)) slot (mem_range'_1.mpr (by omega))
    rw [isSome_map] at hall
    obtain ⟨payload, hp⟩ := isSome_iff_exists.mp hall
    rw [hp, hv slot (by omega) payload hp]
  refine ⟨?_, htrim, hsmall, fun slot h1 h2 => by rw [hsome slot h1 h2]; exact nofun⟩
  rw [filterMap_congr (g := some ∘ fun slot => (slot, log slot)), filterMap_eq_map, flatMap_map]
  · rfl
  · intro slot hslot
    have := mem_range'_1.mp hslot
    rw [hsome slot (by omega) (by omega)]
    rfl

/-- A page that is served: the operations of the range, cut off when they are too many, and
no slot of the range is reclaimed. -/
theorem kvJournalScan_ok (hv : v.Faithful log) {minSlot maxSlot limit : ℕ} {mode : ReadMode}
    {page : Page} {readSlot : ℕ}
    (h : kvJournalScan v minSlot maxSlot keyPrefix limit mode = .ok page readSlot) :
    readSlot = v.readSlot ∧ page = cutPage limit
        (opsIn log keyPrefix (max minSlot 1) (effectiveMax maxSlot v.readSlot + 1)) ∧
      ∀ slot, max minSlot 1 ≤ slot → slot ≤ effectiveMax maxSlot v.readSlot →
        ¬ v.Reclaimed slot ∧ slot + 1 < 2 ^ 64 := by
  have hmax := effectiveMax_le maxSlot v.readSlot
  unfold kvJournalScan at h
  dsimp only at h
  split at h
  · cases h
  · split at h
    · cases h
    · next htrim =>
      split at h
      · next hempty =>
        obtain ⟨rfl, rfl⟩ := PageResponse.ok.inj h
        refine ⟨rfl, ?_, fun slot h1 h2 => by omega⟩
        rw [opsIn_of_le (by omega), cutPage_of_lt (by simp; omega)]
        rfl
      · next hrange =>
        split at h
        · cases h
        · next hlen =>
          obtain ⟨rfl, rfl⟩ := PageResponse.ok.inj h
          obtain ⟨hops, hiter, hsmall, hslots⟩ := acceptedIterRange_eq keyPrefix hv
            (not_lt.mp hrange) hmax (not_not.mp hlen)
          refine ⟨rfl, ?_, fun slot h1 h2 => ⟨?_, by omega⟩⟩
          · rw [← hops]
            exact emitEntries_eq _ Nat.pos_of_ne_zero
          · rintro (hs | hs | hs)
            · omega
            · omega
            · exact hslots slot h1 h2 hs

end Log

/-- Replicas hold the chosen entries. -/
def FaithfulPages (log : ℕ → Bytes) : ScanEvent → Prop
  | .serve v _ => v.Faithful log
  | _ => True

/-- A page that is served splits no slot, and reads as far as the first one did or to the
end of the range. -/
def WholePage (log : ℕ → Bytes) (req : ScanRequest) (s : ScanClient) : ScanEvent → Prop
  | .serve v _ =>
    ¬ SplitsSlot req.pageLimit (opsIn log req.keyPrefix (max s.pageMinSlot 1)
      (effectiveMax req.maxSlot v.readSlot + 1)) ∧
    ∀ r, s.page1ReadSlot = some r → effectiveMax req.maxSlot r ≤ effectiveMax req.maxSlot v.readSlot
  | _ => True

/-- What the client has is what lies before the page it asks for next; what it returns goes
at least as far as the read slot it reports. -/
structure ScanInv (log : ℕ → Bytes) (req : ScanRequest) (s : ScanClient) : Prop where
  behind : s.result = none → req.minSlot ≤ s.pageMinSlot ∧
    s.allOps = opsIn log req.keyPrefix (max req.minSlot 1) s.pageMinSlot
  returned : ∀ ops truncated readSlot, s.result = some (.outcome ops truncated readSlot) →
    ∃ upTo, effectiveMax req.maxSlot readSlot ≤ upTo ∧
      ops = opsIn log req.keyPrefix (max req.minSlot 1) (upTo + 1)

section Client
variable {log : ℕ → Bytes} {req : ScanRequest} {s t : ScanClient}

/-- What is behind the client and the next slots. -/
theorem opsIn_next (log : ℕ → Bytes) (keyPrefix : Bytes) {minSlot pageMinSlot : ℕ} (b : ℕ)
    (h : minSlot ≤ pageMinSlot) :
    opsIn log keyPrefix (max minSlot 1) pageMinSlot ++ opsIn log keyPrefix (max pageMinSlot 1) b =
      opsIn log keyPrefix (max minSlot 1) (max pageMinSlot b) := by
  rcases Nat.eq_zero_or_pos pageMinSlot with rfl | hpos
  · rw [Nat.le_zero.mp h]
    rfl
  · rw [max_eq_left (show 1 ≤ pageMinSlot from hpos)]
    rcases le_total b pageMinSlot with hb | hb
    · rw [opsIn_of_le hb, max_eq_left hb, append_nil]
    · rw [max_eq_right hb, opsIn_append (by omega) hb]

lemma ScanInv.takePage (hs : ScanInv log req s) (hrun : s.result = none) (hlimit : req.limit = 0)
    (hdeadline : req.deadline = none) {now : ℕ} (hwhole : WholePage log req s (.serve v now))
    (hsmall : ∀ slot, max s.pageMinSlot 1 ≤ slot →
      slot ≤ effectiveMax req.maxSlot v.readSlot → slot + 1 < 2 ^ 64) :
    ScanInv log req (takePage req s (cutPage req.pageLimit (opsIn log req.keyPrefix
      (max s.pageMinSlot 1) (effectiveMax req.maxSlot v.readSlot + 1))) v.readSlot now) := by
  obtain ⟨hmin, hops⟩ := hs.behind hrun
  obtain ⟨hsplit, hfresh⟩ := hwhole
  have hnext := fun b => opsIn_next log req.keyPrefix b hmin
  unfold Kv.takePage
  simp only [hlimit, hdeadline, ne_eq, not_true_eq_false, false_and, if_false, any_none]
  by_cases hfull : (cutPage req.pageLimit (opsIn log req.keyPrefix (max s.pageMinSlot 1)
      (effectiveMax req.maxSlot v.readSlot + 1))).truncated = true
  · obtain ⟨c, hc, hcb, hne, hpage⟩ := cutPage_opsIn hsplit hfull
    have hsucc : slotSucc c = c + 1 := by
      have := hsmall c hc (by omega)
      unfold slotSucc
      omega
    rw [hpage, if_pos ⟨rfl, hne⟩, if_neg Bool.false_ne_true, hsucc]
    have hle : s.pageMinSlot ≤ c + 1 := by omega
    refine ⟨fun _ => ⟨hmin.trans hle, ?_⟩, fun _ _ _ h => absurd (hrun.symm.trans h) nofun⟩
    rw [hops, hnext, max_eq_right hle]
  · have hpage : (cutPage req.pageLimit (opsIn log req.keyPrefix (max s.pageMinSlot 1)
        (effectiveMax req.maxSlot v.readSlot + 1))).ops = opsIn log req.keyPrefix
          (max s.pageMinSlot 1) (effectiveMax req.maxSlot v.readSlot + 1) := by
      unfold cutPage at hfull ⊢
      split
      · next h => exact absurd (by rw [if_pos h]) hfull
      · rfl
    rw [if_neg fun h => hfull h.1]
    refine ⟨fun h => absurd h nofun, ?_⟩
    rintro ops truncated readSlot ⟨⟩
    refine ⟨max s.pageMinSlot (effectiveMax req.maxSlot v.readSlot + 1) - 1, ?_, ?_⟩
    · have hreported : effectiveMax req.maxSlot ((s.page1ReadSlot.or (some v.readSlot)).getD 0) ≤
          effectiveMax req.maxSlot v.readSlot := by
        cases hr : s.page1ReadSlot with
        | none => exact le_rfl
        | some r => exact hfresh r hr
      omega
    · rw [hpage, hops, hnext, Nat.sub_add_cancel (by omega)]

lemma ScanInv.step (hs : ScanInv log req s) (hlimit : req.limit = 0)
    (hdeadline : req.deadline = none) {e : ScanEvent} (hfaithful : FaithfulPages log e)
    (hwhole : WholePage log req s e) (hstep : scanStep req s e = some t) : ScanInv log req t := by
  unfold scanStep at hstep
  split at hstep
  · cases hstep
  · next hrun =>
    have hrun : s.result = none := not_isSome_iff_eq_none.mp hrun
    cases e with
    | serve =>
      simp only at hstep
      split at hstep
      · next page readSlot hpage =>
        obtain ⟨rfl, rfl, hslots⟩ := kvJournalScan_ok hfaithful hpage
        rw [← some.inj hstep]
        exact hs.takePage hrun hlimit hdeadline hwhole fun slot h1 h2 => (hslots slot h1 h2).2
      · rw [← some.inj hstep]
        exact ⟨fun h => absurd h nofun, fun _ _ _ h => absurd h nofun⟩
      · exact some.inj hstep ▸ hs
    | retry => exact some.inj hstep ▸ hs
    | exhausted =>
      rw [← some.inj hstep]
      exact ⟨fun h => absurd h nofun, fun _ _ _ h => absurd h nofun⟩

/-- A page whose range holds a reclaimed slot ends the scan with the gap error. -/
theorem scanStep_reclaimed {now slot : ℕ} (hv : v.Faithful log) (hslot : max s.pageMinSlot 1 ≤ slot)
    (hle : slot ≤ effectiveMax req.maxSlot v.readSlot) (hreclaimed : v.Reclaimed slot)
    (hstep : scanStep req s (.serve v now) = some t) : t.result = some .gcGap := by
  have hmax := effectiveMax_le req.maxSlot v.readSlot
  unfold scanStep at hstep
  split at hstep
  · cases hstep
  · simp only at hstep
    split at hstep
    · next page readSlot hpage =>
      exact absurd hreclaimed ((kvJournalScan_ok hv hpage).2.2 slot hslot hle).1
    · rw [← some.inj hstep]
    · next hpage =>
      unfold kvJournalScan at hpage
      split at hpage
      · next hbehind => omega
      · dsimp only at hpage
        repeat' split at hpage
        all_goals cases hpage

/-- A scan without a limit or a deadline, whatever the redirects and lost connections: when
every page is whole, what it returns are the matching operations of all slots from the
first one asked for, in order, at least up to the read slot it reports or the end of the
range; and a slot that was reclaimed before its page was read makes it fail. -/
theorem journalScan_complete (log : ℕ → Bytes) (req : ScanRequest) (writeSlotHighwater : ℕ)
    (hlimit : req.limit = 0) (hdeadline : req.deadline = none)
    (hfloor : req.readMode = .minSlot → writeSlotHighwater ≤ req.minSlot)
    (h : (journalScan req writeSlotHighwater).Reach
      (fun s e => FaithfulPages log e ∧ WholePage log req s e) s) :
    (∀ ops truncated readSlot, s.result = some (.outcome ops truncated readSlot) →
      ∃ upTo, effectiveMax req.maxSlot readSlot ≤ upTo ∧
        ops = opsIn log req.keyPrefix (max req.minSlot 1) (upTo + 1)) ∧
    ∀ v now t slot, v.Faithful log → max s.pageMinSlot 1 ≤ slot →
      slot ≤ effectiveMax req.maxSlot v.readSlot → v.Reclaimed slot →
      scanStep req s (.serve v now) = some t → t.result = some .gcGap := by
  refine ⟨?_, fun v now t slot hv h1 h2 h3 => scanStep_reclaimed hv h1 h2 h3⟩
  refine ScanInv.returned (System.Reach.invariant ?_ ?_ h)
  · rintro s rfl
    refine ⟨fun _ => ?_, fun _ _ _ h => absurd h nofun⟩
    have hstart : max req.minSlot (if req.readMode = .minSlot then writeSlotHighwater else 0) =
        req.minSlot := by
      split
      · next hmode => exact max_eq_left (hfloor hmode)
      · exact max_eq_left (Nat.zero_le _)
    rw [hstart]
    exact ⟨le_rfl, (opsIn_of_le (le_max_left req.minSlot 1)).symm⟩
  · exact fun s e t hs hg => hs.step hlimit hdeadline hg.1 hg.2

/-- Operations of a range that are in its order lie before the slot behind their last one, which
is where the client goes on. -/
theorem sublist_opsIn_last {keyPrefix : Bytes} {a b : ℕ} {ops : List JournalOp}
    (hsmall : ∀ slot, a ≤ slot → slot < b → slot + 1 < 2 ^ 64)
    (hops : ops <+ opsIn log keyPrefix a b) (hne : ops ≠ []) :
    a ≤ slotSucc (lastSlot ops) ∧ ops <+ opsIn log keyPrefix a (slotSucc (lastSlot ops)) := by
  rw [← dropLast_concat_getLast hne] at hops ⊢
  generalize ops.dropLast = front, ops.getLast hne = x at hops
  have hx := slot_of_mem_opsIn (hops.subset mem_concat_self)
  have hlast : slotSucc (lastSlot (front ++ [x])) = x.slot + 1 := by
    have := hsmall x.slot hx.1 hx.2
    rw [lastSlot_concat, slotSucc]
    omega
  have hkept := hops.filter fun o => decide (o.slot ≤ x.slot)
  rw [filter_opsIn (by omega) hx.2, filter_eq_self.mpr] at hkept
  · exact hlast ▸ ⟨by omega, hkept⟩
  · intro o ho
    rcases mem_append.mp ho with ho | ho
    · have hsorted := (pairwise_opsIn a b).sublist hops
      exact decide_eq_true ((pairwise_append.mp hsorted).2.2 o ho x mem_cons_self)
    · exact decide_eq_true (mem_singleton.mp ho ▸ le_rfl)

/-- Whatever the pages are cut to, the client has operations from before the page it asks
for next, each of them once and in order; so is what it returns. -/
structure SoundInv (log : ℕ → Bytes) (req : ScanRequest) (s : ScanClient) : Prop where
  behind : s.result = none → req.minSlot ≤ s.pageMinSlot ∧
    s.allOps <+ opsIn log req.keyPrefix (max req.minSlot 1) s.pageMinSlot
  returned : ∀ ops truncated readSlot, s.result = some (.outcome ops truncated readSlot) →
    ∃ stop, ops <+ opsIn log req.keyPrefix (max req.minSlot 1) stop

lemma SoundInv.of_outcome {stop : ℕ}
    (hops : s.allOps <+ opsIn log req.keyPrefix (max req.minSlot 1) stop)
    {truncated : Bool} {readSlot : ℕ} (h : s.result = some (.outcome s.allOps truncated readSlot)) :
    SoundInv log req s := by
  refine ⟨fun hnone => absurd (hnone.symm.trans h) nofun, fun ops _ _ hout => ?_⟩
  cases h.symm.trans hout
  exact ⟨stop, hops⟩

lemma SoundInv.takePage (hs : SoundInv log req s) (hrun : s.result = none) {page : Page} {b : ℕ}
    (hsmall : ∀ slot, max s.pageMinSlot 1 ≤ slot → slot < b → slot + 1 < 2 ^ 64)
    (hpage : page.ops <+ opsIn log req.keyPrefix (max s.pageMinSlot 1) b)
    (hlast : page.lastOpSlot = lastSlot page.ops) (readSlot now : ℕ) :
    SoundInv log req (takePage req s page readSlot now) := by
  obtain ⟨hmin, hops⟩ := hs.behind hrun
  have hall := opsIn_next log req.keyPrefix b hmin ▸ hops.append hpage
  unfold Kv.takePage
  dsimp only
  split
  · exact .of_outcome ((take_sublist _ _).trans hall) rfl
  split
  · next hfull =>
    split
    · exact .of_outcome hall rfl
    -- the rest of a split slot is passed over, so nothing comes twice
    · obtain ⟨hle, hsub⟩ := hlast ▸ sublist_opsIn_last hsmall hpage hfull.2
      have hle := (le_max_left s.pageMinSlot 1).trans hle
      have hfront := opsIn_next log req.keyPrefix (slotSucc page.lastOpSlot) hmin
      rw [max_eq_right hle] at hfront
      exact ⟨fun _ => ⟨hmin.trans hle, hfront ▸ hops.append hsub⟩,
        fun _ _ _ h => absurd (hrun.symm.trans h) nofun⟩
  · exact .of_outcome hall rfl

lemma SoundInv.step (hs : SoundInv log req s) {e : ScanEvent} (hfaithful : FaithfulPages log e)
    (hstep : scanStep req s e = some t) : SoundInv log req t := by
  unfold scanStep at hstep
  split at hstep
  · cases hstep
  · next hrun =>
    have hrun : s.result = none := not_isSome_iff_eq_none.mp hrun
    cases e with
    | serve v =>
      simp only at hstep
      split at hstep
      · next page readSlot hpage =>
        obtain ⟨rfl, rfl, hslots⟩ := kvJournalScan_ok hfaithful hpage
        rw [← some.inj hstep]
        refine hs.takePage hrun
          (fun slot h1 h2 => (hslots slot h1 (Nat.le_of_lt_succ h2)).2) ?_ ?_ _ _
        all_goals
          unfold cutPage
          split
        · exact take_sublist _ _
        · exact .refl _
        all_goals rfl
      · exact some.inj hstep ▸ ⟨nofun, nofun⟩
      · exact some.inj hstep ▸ hs
    | retry => exact some.inj hstep ▸ hs
    | exhausted => exact some.inj hstep ▸ ⟨nofun, nofun⟩

/-- Whatever the limits, the deadline and the pages: a scan returns operations of the log with a
matching key from the first slot asked for on, each at most once and in order. -/
theorem journalScan_sound (log : ℕ → Bytes) (req : ScanRequest) (writeSlotHighwater : ℕ)
    (h : (journalScan req writeSlotHighwater).Reach (fun _ e => FaithfulPages log e) s) :
    ∀ ops truncated readSlot, s.result = some (.outcome ops truncated readSlot) →
      ∃ stop, ops <+ opsIn log req.keyPrefix (max req.minSlot 1) stop := by
  refine SoundInv.returned (System.Reach.invariant ?_ (fun s e t hs hg => hs.step hg) h)
  rintro s rfl
  exact ⟨fun _ => ⟨le_max_left _ _, nil_sublist _⟩, nofun⟩

end Client

/-- Two operations in slot 1 and one in slot 2. -/
def threeOps (slot : ℕ) : Bytes :=
  if slot = 1 then encodeKvPayload [([1], some [10]), ([2], some [20])]
  else if slot = 2 then encodeKvPayload [([3], none)]
  else []

/-- A replica that has applied both slots. -/
def threeOpsView : ReplicaView := ⟨2, 0, 0, fun slot => some (threeOps slot)⟩

lemma threeOpsView_faithful : threeOpsView.Faithful threeOps := fun _ _ _ h => (some.inj h).symm

/-- A scan of everything in pages. -/
def scanAll (pageLimit : ℕ) : ScanRequest := ⟨0, 0, [], 0, pageLimit, .linearizable, none⟩

/-- Two pages, the first of which ends with slot 1. -/
theorem journalScan_complete_two_pages : ∃ s, (journalScan (scanAll 2) 0).Reach
      (fun s e => FaithfulPages threeOps e ∧ WholePage threeOps (scanAll 2) s e) s ∧
    s.result = some (.outcome (opsIn threeOps [] 1 3) false 2) ∧
    ∃ upTo, 2 ≤ upTo ∧ opsIn threeOps [] 1 3 = opsIn threeOps [] 1 (upTo + 1) := by
  have hstart : (journalScan (scanAll 2) 0).Reach
      (fun s e => FaithfulPages threeOps e ∧ WholePage threeOps (scanAll 2) s e)
      { pageMinSlot := 0 } := .init rfl
  have hone := hstart.step (ScanEvent.serve threeOpsView 0)
    ⟨threeOpsView_faithful, by decide, nofun⟩ rfl
  have htwo := hone.step (ScanEvent.serve threeOpsView 0)
    ⟨threeOpsView_faithful, by decide, by rintro r ⟨⟩; decide⟩ rfl
  have hresult := (journalScan_complete threeOps (scanAll 2) 0 rfl rfl nofun htwo).1 _ _ _ rfl
  exact ⟨_, htwo, by decide, hresult⟩

/-- A page limit inside a slot: the scan succeeds without the second operation of slot 1. -/
theorem operation_skipped : ∃ s,
    (journalScan (scanAll 1) 0).Reach (fun _ e => FaithfulPages threeOps e) s ∧
    s.result = some (.outcome [⟨[1], [10], false, 1⟩, ⟨[3], [], true, 2⟩] false 2) ∧
    opsIn threeOps [] 1 3 = [⟨[1], [10], false, 1⟩, ⟨[2], [20], false, 1⟩, ⟨[3], [], true, 2⟩] := by
  have hstart : (journalScan (scanAll 1) 0).Reach (fun _ => FaithfulPages threeOps)
      { pageMinSlot := 0 } := .init rfl
  have hone := hstart.step (ScanEvent.serve threeOpsView 0) threeOpsView_faithful rfl
  have htwo := hone.step (ScanEvent.serve threeOpsView 0) threeOpsView_faithful rfl
  have hthree := htwo.step (ScanEvent.serve threeOpsView 0) threeOpsView_faithful rfl
  exact ⟨_, hthree, by decide, by decide⟩

/-- A page of one operation splits slot 1, and the deadline has passed. -/
theorem journalScan_sound_deadline : ∃ s ops,
    (journalScan { scanAll 1 with deadline := some 0 } 0).Reach
    (fun _ => FaithfulPages threeOps) s ∧
      s.result = some (.outcome ops true 2) ∧ ∃ stop, ops <+ opsIn threeOps [] 1 stop := by
  have hpage : (journalScan { scanAll 1 with deadline := some 0 } 0).Reach
      (fun _ => FaithfulPages threeOps) _ :=
    .step (ScanEvent.serve threeOpsView 0) (.init rfl) threeOpsView_faithful rfl
  exact ⟨_, _, hpage, rfl, journalScan_sound threeOps _ 0 hpage _ _ _ rfl⟩

end CrowDB.Kv
