import CrowDB.DiskDb.ZoneRecovery
import CrowDB.Lib.Transition

/-!
# One zone at work

The durable records of one zone, the memory of the process that owns it, and every
step that the two can take: claims of single bits by concurrent allocations and their
rollback, the writes of allocations, commits, corruption marks and frees, the phases of
a compaction, a crash, and the two ways to load the zone again.

A write to the data group is admitted by the disk's write gate and carried out later. It
may be applied, refused, or end with an unknown outcome; the latter closes the gate. A
batch that touches several zones is seen here with its records of this zone; the writes
of other zones only advance the slot, and their unknown outcomes close the gate. Zone
rotation decides which zone is allocated from or compacted next and changes nothing that
is kept here: both can happen at any time.
-/
namespace CrowDB.DiskDb
open Lib BitWords

/-- `Segment`: what an allocation returns, and the argument of every later operation. -/
structure Segment where
  unitOffset : ℕ
  unitCount : ℕ
  ownerChunk : Option ChunkId
  allocationTs : ℕ
  deriving DecidableEq, Repr

def Segment.units (s : Segment) : Finset ℕ :=
  Finset.Ico s.unitOffset (s.unitOffset + s.unitCount)

/-- The incarnation that a record stands for. -/
def BusyRecord.segment (r : BusyRecord) : Segment :=
  ⟨r.key.unitOffset, r.value.unitCount, r.value.ownerChunk, r.value.allocationTs⟩

def FreeRecord.segment (f : FreeRecord) : Segment :=
  ⟨f.key.unitOffset, f.value.unitCount, f.value.previousOwner, f.value.preAllocationTs⟩

/-- The incarnation that a cached or written value stands for. -/
def entrySegment (x : ℕ × BusyBlockValue) : Segment :=
  ⟨x.1, x.2.unitCount, x.2.ownerChunk, x.2.allocationTs⟩

structure AllocatedRange where
  unitOffset : ℕ
  unitCount : ℕ
  deriving DecidableEq, Repr

def AllocatedRange.bits (r : AllocatedRange) : List ℕ := List.range' r.unitOffset r.unitCount

structure ZoneConfig where
  diskId : DiskId
  zoneIndex : ℕ
  unitSize : ℕ
  unitCapacity : ℕ
  unitCapacity_lt : unitCapacity < 2 ^ 32

namespace ZoneConfig

def busyKey (cfg : ZoneConfig) (offset : ℕ) : BusyBlockKey := ⟨cfg.diskId, cfg.zoneIndex, offset⟩

def freeKey (cfg : ZoneConfig) (s : Segment) : FreeBlockKey :=
  ⟨cfg.diskId, cfg.zoneIndex, s.unitOffset, s.allocationTs⟩

def wordCount (cfg : ZoneConfig) : ℕ := (cfg.unitCapacity + 63) / 64

end ZoneConfig

section Store

/-- A `ZoneValue` with its bitmap decoded. -/
structure Snapshot where
  bits : Finset ℕ := ∅
  snapshotSlot : ℕ := 0
  compactSlot : ℕ := 0

/-- The records of the zone in the data group, and the journal of its busy keys. -/
structure ZoneStore where
  slot : ℕ
  busy : List BusyRecord := []
  free : List FreeRecord := []
  snapshot : Option Snapshot := none
  journal : List BusyOp := []

def BusyOp.slot : BusyOp → ℕ
  | put r => r.commitSlot
  | delete _ slot => slot

namespace ZoneStore

/-- Write entries of busy keys at the next slot. -/
def log (st : ZoneStore) (ops : List BusyOp) : ZoneStore :=
  { st with busy := BusyOp.applyAll st.busy ops, journal := st.journal ++ ops, slot := st.slot + 1 }

/-- `persist_busy` and `persist_busy_batch`. -/
def persistBusy (cfg : ZoneConfig) (st : ZoneStore) (xs : List (ℕ × BusyBlockValue)) : ZoneStore :=
  st.log (xs.map fun x => .put ⟨cfg.busyKey x.1, x.2, st.slot + 1⟩)

/-- One free fact; a fact of the same incarnation is replaced. -/
def putFree (cfg : ZoneConfig) (slot : ℕ) (free : List FreeRecord) (x : Segment × ℕ) :
    List FreeRecord :=
  free.filter (fun f => f.key ≠ cfg.freeKey x.1) ++
    [⟨cfg.freeKey x.1, ⟨x.1.unitCount, x.1.ownerChunk, x.1.allocationTs, x.2⟩, slot⟩]

/-- `persist_free` and `persist_free_batch`: segments with the time of their free. -/
def persistFree (cfg : ZoneConfig) (st : ZoneStore) (xs : List (Segment × ℕ)) : ZoneStore :=
  { st with free := xs.foldl (putFree cfg (st.slot + 1)) st.free, slot := st.slot + 1 }

section
variable (st : ZoneStore)

def putZone (v : Snapshot) : ZoneStore :=
  { st with snapshot := some v, slot := st.slot + 1 }

/-- `compact_zone_batch`: the snapshot, the busy keys and the free keys in one batch. -/
def compactZoneBatch (v : Snapshot) (busyKeys : List BusyBlockKey) (freeKeys : List FreeBlockKey)
    : ZoneStore :=
  { st.log (busyKeys.map fun key => .delete key (st.slot + 1)) with
    snapshot := some v
    free := st.free.filter fun f => f.key ∉ freeKeys }

/-- The journal that a load has to replay. -/
def tail : List BusyOp :=
  st.journal.filter fun op => (st.snapshot.getD {}).snapshotSlot < op.slot

def busyAt (offset : ℕ) : Option BusyRecord :=
  st.busy.find? fun r => r.key.unitOffset = offset

end

end ZoneStore
end Store

section Memory

/-- Ranges that are cleared bit by bit, each of them wholly or not at all. -/
structure Sweep where
  rest : List AllocatedRange
  todo : List ℕ := []
  cleared : List ℕ := []
  resetting : Bool := false

namespace Sweep

/-- The bits that are still to be cleared. -/
def held (s : Sweep) : List ℕ := s.todo ++ s.rest.flatMap AllocatedRange.bits

/-- One bit operation; `won` is false when a compare-and-swap loses to a change of another
bit in the word. A range with a bit that cannot be cleared gets its cleared bits back.
`verify` looks at a whole range before its first bit is touched. -/
def step (verify : Bool) (bits : Finset ℕ) (won : Bool) (s : Sweep) : Option (Finset ℕ × Sweep) :=
  if s.resetting then
    match s.cleared with
    | u :: us => some (if won then insert u bits else bits, { s with cleared := us })
    | [] => some (bits, { s with resetting := false })
  else
    match s.todo with
    | u :: us =>
      if won ∧ u ∈ bits then some (bits.erase u, { s with todo := us, cleared := u :: s.cleared })
      else some (bits, { s with todo := [], resetting := true })
    | [] =>
      match s.rest with
      | [] => none
      | r :: rest =>
        if verify ∧ ¬ ∀ u ∈ r.bits, u ∈ bits then some (bits, ⟨rest, [], [], false⟩)
        else some (bits, ⟨rest, r.bits, [], false⟩)

end Sweep

/-- Where one allocation stands. -/
inductive AllocPhase
  | idle
  | claiming (range : AllocatedRange) (done : ℕ)
  | undoing (bits : List ℕ)
  | ready (records : List (ℕ × BusyBlockValue))
  | admitted (records : List (ℕ × BusyBlockValue))
  | rollback (sweep : Sweep)

/-- A call of `allocate_block` or `allocate_blocks`: the ranges it has claimed so far. -/
structure AllocCall where
  owner : Option ChunkId
  claims : List AllocatedRange := []
  phase : AllocPhase := .idle

inductive AllocAction
  | tryRange (range : AllocatedRange)
  | casBit (won : Bool)
  | undoBit (won : Bool)
  | stamp (clock : List ℕ)
  | giveUp
  | sweep (won : Bool)

/-- Timestamps from successive readings of the clock: `next_allocation_ts`. -/
def nextAllocationTs (last : ℕ) : List ℕ → List ℕ
  | [] => []
  | now :: clock => max now (last + 1) :: nextAllocationTs (max now (last + 1)) clock

namespace AllocCall

/-- The bits that the call has set and not given to a record. -/
def held (c : AllocCall) : List ℕ :=
  c.claims.flatMap AllocatedRange.bits ++
    match c.phase with
    | .claiming range done => List.range' range.unitOffset done
    | .undoing bits => bits
    | .rollback sweep => sweep.held
    | _ => []

/-- Undo all claims: `rollback_claims`. -/
def rollBack (c : AllocCall) : AllocCall :=
  { c with claims := [], phase := .rollback { rest := c.claims } }

/-- The busy records of the claims. -/
def records (cfg : ZoneConfig) (c : AllocCall) (stamps : List ℕ) : List (ℕ × BusyBlockValue) :=
  List.zipWith (fun r ts => (r.unitOffset,
    { unitCount := r.unitCount
      ownerChunk := c.owner
      unitSize := cfg.unitSize
      state := BlockState.ok.toI32
      commitState := CommitState.tentative.toI32
      allocationTs := ts })) c.claims stamps

/-- A step that stays in memory: the bitmap, the timestamp source and the call. -/
def step (cfg : ZoneConfig) (bits : Finset ℕ) (lastTs : ℕ) (c : AllocCall) :
    AllocAction → Option (Finset ℕ × ℕ × AllocCall)
  | .tryRange range => match c.phase with
    | .idle =>
      if 0 < range.unitCount ∧ range.unitOffset + range.unitCount ≤ cfg.unitCapacity then
        some (bits, lastTs, { c with phase := .claiming range 0 })
      else none
    | _ => none
  | .casBit won => match c.phase with
    | .claiming range done =>
      if won ∧ range.unitOffset + done ∉ bits then
        let next := if done + 1 = range.unitCount then
            { c with claims := c.claims ++ [range], phase := .idle }
          else { c with phase := .claiming range (done + 1) }
        some (insert (range.unitOffset + done) bits, lastTs, next)
      else some (bits, lastTs, { c with phase := .undoing (List.range' range.unitOffset done) })
    | _ => none
  | .undoBit won => match c.phase with
    | .undoing [] => some (bits, lastTs, { c with phase := .idle })
    | .undoing (u :: us) =>
      some (if won then bits.erase u else bits, lastTs, { c with phase := .undoing us })
    | _ => none
  | .stamp clock => match c.phase with
    | .idle =>
      if c.claims ≠ [] ∧ clock.length = c.claims.length then
        let stamps := nextAllocationTs lastTs clock
        some (bits, stamps.getLast?.getD lastTs,
          { c with phase := .ready (c.records cfg stamps) })
      else none
    | _ => none
  | .giveUp => match c.phase with
    | .idle => some (bits, lastTs, c.rollBack)
    | _ => none
  | .sweep won => match c.phase with
    | .rollback sweep => (sweep.step true bits won).map fun x =>
        (x.1, lastTs, { c with phase := .rollback x.2 })
    | _ => none

end AllocCall

/-- A call of `commit_blocks`: what it has read so far. -/
structure CommitCall where
  todo : List Segment
  records : List (ℕ × BusyBlockValue) := []
  cached : List ℕ := []
  admitted : Bool := false

/-- One segment of `mark_blocks_corrupt`, with the value and revision it has read. -/
structure MarkCall where
  segment : Segment
  read : Option (BusyBlockValue × ℕ) := none
  admitted : Bool := false

/-- A call of `free_block` or `free_blocks`: segments with the time of their free. -/
structure FreeCall where
  records : List (Segment × ℕ)
  admitted : Bool := false

/-- What a compaction decides from its scans. -/
structure CompactionPlan where
  cutoff : ℕ
  matched : List FreeRecord
  busyKeys : List BusyBlockKey
  freeKeys : List FreeBlockKey

inductive Compaction
  | idle
  | freeScanned (free : List FreeRecord) (cutoff : ℕ)
  | copying (plan : CompactionPlan) (word : ℕ) (bits : Finset ℕ)
  | prepared (plan : CompactionPlan) (bits : Finset ℕ)
  | admitted (plan : CompactionPlan) (bits : Finset ℕ)
  | publishing (plan : CompactionPlan) (sweep : Sweep)

/-- The range that `range_clear` is called with for a free fact. -/
def FreeRecord.range (f : FreeRecord) : AllocatedRange :=
  ⟨f.key.unitOffset % 2 ^ 32, f.value.unitCount⟩

def matchingFreeRecords (busy : List BusyRecord) (free : List FreeRecord) (cutoff : ℕ) :
    List FreeRecord :=
  free.filter fun f => f.commitSlot ≤ cutoff && f.hasBusy busy

namespace Compaction

/-- The bits that are still to be cleared after the batch. -/
def held : Compaction → List ℕ
  | publishing _ sweep => sweep.held
  | _ => []

/-- The plan for the busy records that were not written after the cutoff. -/
def plan (busy : List BusyRecord) (free : List FreeRecord) (cutoff : ℕ) : CompactionPlan :=
  let matched := matchingFreeRecords busy free cutoff
  { cutoff
    matched
    busyKeys := matched.filterMap fun f => (busyByOffset busy f.key.unitOffset).map BusyRecord.key
    freeKeys := free.map FreeRecord.key }

end Compaction

/-- The bitmap of a snapshot: `prepare_compaction` after the copy. -/
def CompactionPlan.clear (plan : CompactionPlan) (bits : Finset ℕ) : Finset ℕ :=
  plan.matched.foldl (fun bits f => releaseAll bits f.range.bits.toFinset) bits

/-- The memory of the owning process, as far as it concerns the zone. -/
structure ZoneMemory where
  bits : Finset ℕ
  compactSlot : ℕ
  lastTs : ℕ
  gateClosed : Bool := false
  tentative : List (ℕ × BusyBlockValue) := []
  allocs : List AllocCall := []
  commits : List CommitCall := []
  marks : List MarkCall := []
  frees : List FreeCall := []
  compaction : Compaction := .idle

end Memory

/-- How a write ends for its caller; an unknown outcome says nothing about the store. -/
inductive WriteOutcome
  | ok
  | failed
  | unknown (applied : Bool)
  deriving DecidableEq, Repr

namespace WriteOutcome

def applied : WriteOutcome → Bool
  | ok => true
  | failed => false
  | unknown applied => applied

def isUnknown : WriteOutcome → Bool
  | unknown _ => true
  | _ => false

end WriteOutcome

/-- The zone together with what its callers know: the segments that were returned, those
whose free was requested, those whose free was consolidated, and the largest timestamp
that was issued. -/
structure ZoneState where
  store : ZoneStore
  memory : Option ZoneMemory := none
  returned : List Segment := []
  freeRequested : List Segment := []
  consolidated : List Segment := []
  issuedTs : ℕ := 0

inductive ZoneAction
  | startAlloc (owner : Option ChunkId)
  | alloc (k : ℕ) (a : AllocAction)
  | admitAlloc (k : ℕ)
  | writeAlloc (k : ℕ) (outcome : WriteOutcome)
  | startCommit (segments : List Segment)
  | readCommit (k : ℕ)
  | admitCommit (k : ℕ)
  | writeCommit (k : ℕ) (outcome : WriteOutcome)
  | startMark (segment : Segment)
  | readMark (k : ℕ)
  | admitMark (k : ℕ)
  | writeMark (k : ℕ) (outcome : WriteOutcome)
  | requestFree (records : List (Segment × ℕ))
  | admitFree (k : ℕ)
  | writeFree (k : ℕ) (outcome : WriteOutcome)
  | trimTentative
  | scanFree
  | scanBusy
  | copyWord
  | prepare
  | admitCompaction
  | writeCompaction (outcome : WriteOutcome)
  | publish
  | otherWrite
  | closeGate
  | crash
  | loadReplay (now : ℕ)
  | loadFullScan (now : ℕ) (written : Bool)

namespace ZoneMemory

section
variable (m : ZoneMemory)

/-- An unknown outcome closes the gate. -/
def settle (o : WriteOutcome) : ZoneMemory :=
  { m with gateClosed := m.gateClosed || o.isUnknown }

/-- `matching_tentative`. -/
def matchingTentative (s : Segment) : Option BusyBlockValue :=
  (m.tentative.find? fun x => x.2.allocationTs = s.allocationTs).bind fun x =>
    if x.1 = s.unitOffset ∧ x.2.ownerChunk = s.ownerChunk ∧ x.2.unitCount = s.unitCount
    then some x.2 else none

/-- `remove_matching_tentative`. -/
def removeMatchingTentative (s : Segment) : ZoneMemory :=
  { m with tentative := m.tentative.filter fun x =>
      ¬(x.2.allocationTs = s.allocationTs ∧ x.1 = s.unitOffset) }

/-- `remove_tentative`. -/
def removeTentative (ts : ℕ) : ZoneMemory :=
  { m with tentative := m.tentative.filter fun x => x.2.allocationTs ≠ ts }

/-- `trim_tentative_blocks` retires the oldest entry. The cache is shared with other zones, so
that it can be over its capacity at any time. -/
def trimTentative : ZoneMemory :=
  ((m.tentative.map fun x => x.2.allocationTs).min?).elim m m.removeTentative

end

end ZoneMemory

/-- The incarnation check of `commit_blocks` and `mark_blocks_corrupt`. -/
def Segment.isHeldBy (s : Segment) (v : BusyBlockValue) : Bool :=
  v.allocationTs == s.allocationTs && v.unitCount == s.unitCount && v.ownerChunk == s.ownerChunk

namespace ZoneState
variable (cfg : ZoneConfig)

def setMemory (s : ZoneState) (m : ZoneMemory) : ZoneState := { s with memory := some m }

section Allocation

section
variable (s : ZoneState) (m : ZoneMemory) (k : ℕ)

def stepAlloc (a : AllocAction) : Option ZoneState :=
  m.allocs[k]?.bind fun c => (c.step cfg m.bits m.lastTs a).map fun x =>
    { s with
      memory := some { m with bits := x.1, lastTs := x.2.1, allocs := m.allocs.set k x.2.2 }
      issuedTs := max s.issuedTs x.2.1 }

/-- A closed gate refuses the write before it starts; the claims are undone. -/
def admitAlloc : Option ZoneState :=
  m.allocs[k]?.bind fun c => match c.phase with
    | .ready records =>
      let next := if m.gateClosed then c.rollBack else { c with phase := .admitted records }
      some (s.setMemory { m with allocs := m.allocs.set k next })
    | _ => none

/-- The write of an allocation. When it is acknowledged, the records are cached and their
segments returned; in every other case the claims are undone. -/
def writeAlloc (o : WriteOutcome) : Option ZoneState :=
  m.allocs[k]?.bind fun c => match c.phase with
    | .admitted records =>
      let store := if o.applied then s.store.persistBusy cfg records else s.store
      match o with
      | .ok => some
          { s with
            store
            memory := some
              { m with allocs := m.allocs.eraseIdx k, tentative := m.tentative ++ records }
            returned := s.returned ++ records.map entrySegment }
      | _ => some
          { s with
            store
            memory := some (({ m with allocs := m.allocs.set k c.rollBack }).settle o) }
    | _ => none

end

end Allocation

section Commit

section
variable (s : ZoneState) (m : ZoneMemory) (k : ℕ)

/-- Read the next segment of a commit, from the cache or from the store. A missing record
or another incarnation ends the call. -/
def readCommit : Option ZoneState :=
  m.commits[k]?.bind fun c => match c.todo with
    | [] => none
    | seg :: todo =>
      let hit := m.matchingTentative seg
      let current := hit.or ((s.store.busyAt seg.unitOffset).map BusyRecord.value)
      let cached := if hit.isSome then c.cached ++ [seg.allocationTs] else c.cached
      let commits := match current with
        | none => m.commits.eraseIdx k
        | some v =>
          if seg.isHeldBy v then
            if v.commitState ≠ CommitState.committed.toI32 then
              m.commits.set k
                { c with
                  todo
                  cached
                  records := c.records ++
                    [(seg.unitOffset, { v with commitState := CommitState.committed.toI32 })] }
            else m.commits.set k { c with todo, cached }
          else m.commits.eraseIdx k
      some (s.setMemory { m with commits })

/-- After the last read: nothing to write ends the call, a closed gate refuses it. -/
def admitCommit : Option ZoneState :=
  m.commits[k]?.bind fun c =>
    if c.todo = [] ∧ c.admitted = false then
      let ended := { m with commits := m.commits.eraseIdx k }
      if c.records = [] then some (s.setMemory (c.cached.foldl ZoneMemory.removeTentative ended))
      else if m.gateClosed then some (s.setMemory ended)
      else some (s.setMemory { m with commits := m.commits.set k { c with admitted := true } })
    else none

/-- The write of a commit is unconditional. -/
def writeCommit (o : WriteOutcome) : Option ZoneState :=
  m.commits[k]?.bind fun c =>
    if c.admitted = true then
      let m' := ({ m with commits := m.commits.eraseIdx k }).settle o
      some
        { s with
          store := if o.applied then s.store.persistBusy cfg c.records else s.store
          memory := some (if o = .ok then c.cached.foldl ZoneMemory.removeTentative m' else m') }
    else none

end

end Commit

section Mark

section
variable (s : ZoneState) (m : ZoneMemory) (k : ℕ)

/-- Read the record of a segment; only a committed record of the same incarnation goes on. -/
def readMark : Option ZoneState :=
  m.marks[k]?.bind fun c =>
    if c.read = none then
      let marks := match s.store.busyAt c.segment.unitOffset with
        | none => m.marks.eraseIdx k
        | some r =>
          if c.segment.isHeldBy r.value ∧ r.value.commitState = CommitState.committed.toI32
              ∧ r.value.state ≠ BlockState.corrupt.toI32 then
            m.marks.set k { c with read := some (r.value, r.commitSlot) }
          else m.marks.eraseIdx k
      some (s.setMemory { m with marks })
    else none

def admitMark : Option ZoneState :=
  m.marks[k]?.bind fun c =>
    if c.read ≠ none ∧ c.admitted = false then
      let next :=
        if m.gateClosed then m.marks.eraseIdx k else m.marks.set k { c with admitted := true }
      some (s.setMemory { m with marks := next })
    else none

/-- `replace_busy_cas`: the store keeps its record when the revision has changed. -/
def writeMark (o : WriteOutcome) : Option ZoneState :=
  m.marks[k]?.bind fun c => match c.read with
    | some (v, revision) =>
      if c.admitted = true then
        let current := (s.store.busyAt c.segment.unitOffset).any fun r => r.commitSlot = revision
        let corrupt := { v with state := BlockState.corrupt.toI32 }
        some
          { s with
            store := if o.applied ∧ current
              then s.store.persistBusy cfg [(c.segment.unitOffset, corrupt)] else s.store
            memory := some (({ m with marks := m.marks.eraseIdx k }).settle o) }
      else none
    | none => none

end

end Mark

section Free

section
variable (s : ZoneState) (m : ZoneMemory)

def requestFree (records : List (Segment × ℕ)) : ZoneState :=
  { s with
    memory := some { m with frees := m.frees ++ [{ records }] }
    freeRequested := s.freeRequested ++ records.map Prod.fst }

def admitFree (k : ℕ) : Option ZoneState :=
  m.frees[k]?.bind fun c =>
    if c.admitted = false then
      let next :=
        if m.gateClosed then m.frees.eraseIdx k else m.frees.set k { c with admitted := true }
      some (s.setMemory { m with frees := next })
    else none

def writeFree (k : ℕ) (o : WriteOutcome) : Option ZoneState :=
  m.frees[k]?.bind fun c =>
    if c.admitted = true then
      let m' := ({ m with frees := m.frees.eraseIdx k }).settle o
      some
        { s with
          store := if o.applied then s.store.persistFree cfg c.records else s.store
          memory := some (if o = .ok then
            c.records.foldl (fun m x => m.removeMatchingTentative x.1) m' else m') }
    else none

end

end Free

section Compact

section
variable (s : ZoneState) (m : ZoneMemory)

/-- The first scan fixes the cutoff. -/
def scanFree : Option ZoneState :=
  match m.compaction with
  | .idle => some (s.setMemory { m with compaction := .freeScanned s.store.free s.store.slot })
  | _ => none

/-- The second scan sees the busy records of a later moment, without those that were
written after the cutoff. -/
def scanBusy : Option ZoneState :=
  match m.compaction with
  | .freeScanned free cutoff =>
    let busy := s.store.busy.filter fun r => r.commitSlot ≤ cutoff
    let next := if cutoff ≤ m.compactSlot then .idle
      else .copying (Compaction.plan busy free cutoff) 0 ∅
    some (s.setMemory { m with compaction := next })
  | _ => none

def copyWord : Option ZoneState :=
  match m.compaction with
  | .copying plan word bits =>
    if word < cfg.wordCount then
      let next := bits ∪ m.bits.filter fun u => u / 64 = word
      some (s.setMemory { m with compaction := .copying plan (word + 1) next })
    else none
  | _ => none

def prepare : Option ZoneState :=
  match m.compaction with
  | .copying plan word bits =>
    if word = cfg.wordCount then
      some (s.setMemory { m with compaction := .prepared plan (plan.clear bits) })
    else none
  | _ => none

def admitCompaction : Option ZoneState :=
  match m.compaction with
  | .prepared plan bits =>
    let next := if m.gateClosed then .idle else .admitted plan bits
    some (s.setMemory { m with compaction := next })
  | _ => none

/-- The batch; only an acknowledged one is published to the live bitmap. -/
def writeCompaction (o : WriteOutcome) : Option ZoneState :=
  match m.compaction with
  | .admitted plan bits =>
    let next := if o = .ok then .publishing plan { rest := plan.matched.map FreeRecord.range }
      else .idle
    some
      { s with
        store := if o.applied then
            s.store.compactZoneBatch ⟨bits, plan.cutoff, plan.cutoff⟩ plan.busyKeys plan.freeKeys
          else s.store
        memory := some (({ m with compaction := next }).settle o)
        consolidated := if o.applied then s.consolidated ++ plan.matched.map FreeRecord.segment
          else s.consolidated }
  | _ => none

/-- One bit of `compact_zone_inner`, or the end of the compaction. -/
def publish : Option ZoneState :=
  match m.compaction with
  | .publishing plan sweep =>
    let next := match sweep.step false m.bits true with
      | some (bits, sweep) => { m with bits, compaction := .publishing plan sweep }
      | none => { m with compactSlot := plan.cutoff, compaction := .idle }
    some (s.setMemory next)
  | _ => none

end

end Compact

section Load

/-- `load_zone_inner`; `now` is the clock, or a larger timestamp that the load has seen
elsewhere. -/
def loadReplay (s : ZoneState) (now : ℕ) : ZoneState :=
  let base := s.store.snapshot.getD {}
  s.setMemory
    { bits := replayUnits base.bits s.store.tail
      compactSlot := base.compactSlot
      lastTs := max now (maxAllocationTs s.store.tail + 1) }

/-- `rebuild_zone_bitmap_full_scan`, with or without its snapshot. -/
def loadFullScan (s : ZoneState) (now : ℕ) (written : Bool) : ZoneState :=
  let bits := (fullScanBits cfg.unitCapacity ⟨none, s.store.busy, s.store.free⟩).units
  { s with
    store := if written ∧ 0 < s.store.slot then s.store.putZone ⟨bits, s.store.slot, 0⟩ else s.store
    memory := some
      { bits
        compactSlot := 0
        lastTs := max now 1 } }

end Load

def step (s : ZoneState) (a : ZoneAction) : Option ZoneState :=
  match s.memory with
  | none => match a with
    | .loadReplay now => some (s.loadReplay now)
    | .loadFullScan now written => some (s.loadFullScan cfg now written)
    | .otherWrite => some { s with store := { s.store with slot := s.store.slot + 1 } }
    | _ => none
  | some m => match a with
    | .startAlloc owner => some (s.setMemory { m with allocs := m.allocs ++ [{ owner }] })
    | .alloc k a => s.stepAlloc cfg m k a
    | .admitAlloc k => s.admitAlloc m k
    | .writeAlloc k o => s.writeAlloc cfg m k o
    | .startCommit segments =>
      some (s.setMemory { m with commits := m.commits ++ [{ todo := segments }] })
    | .readCommit k => s.readCommit m k
    | .admitCommit k => s.admitCommit m k
    | .writeCommit k o => s.writeCommit cfg m k o
    | .startMark segment => some (s.setMemory { m with marks := m.marks ++ [{ segment }] })
    | .readMark k => s.readMark m k
    | .admitMark k => s.admitMark m k
    | .writeMark k o => s.writeMark cfg m k o
    | .requestFree records => some (s.requestFree m records)
    | .admitFree k => s.admitFree m k
    | .writeFree k o => s.writeFree cfg m k o
    | .trimTentative => some (s.setMemory m.trimTentative)
    | .scanFree => s.scanFree m
    | .scanBusy => s.scanBusy m
    | .copyWord => s.copyWord cfg m
    | .prepare => s.prepare cfg m
    | .admitCompaction => s.admitCompaction m
    | .writeCompaction o => s.writeCompaction m o
    | .publish => s.publish m
    | .otherWrite => some { s with store := { s.store with slot := s.store.slot + 1 } }
    | .closeGate => some (s.setMemory { m with gateClosed := true })
    | .crash => some { s with memory := none }
    | .loadReplay _ => none
    | .loadFullScan .. => none

end ZoneState

/-- The zone from its creation on: it has no records, and it is loaded before its use. -/
def zoneSystem (cfg : ZoneConfig) : System ZoneState ZoneAction where
  init s := s.store.busy = [] ∧ s.store.free = [] ∧ s.store.snapshot = none ∧
    s.store.journal = [] ∧ s.memory = none ∧ s.returned = [] ∧ s.freeRequested = [] ∧
    s.consolidated = []
  step := ZoneState.step cfg

end CrowDB.DiskDb
