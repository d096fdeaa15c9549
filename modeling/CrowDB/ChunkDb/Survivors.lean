import CrowDB.ChunkDb.Record
import CrowDB.Lib.Check

/-!
# The survivors of a conversion

A published conversion keeps one mirror segment of every strip of its group. The search
goes through all choices on healthy disk groups that put no more segments on one node,
parity included, than the group may lose, and keeps the one that spreads best. The
placement of the chosen segments is assessed against the same budget.
-/
namespace CrowDB.ChunkDb
open Lib List
open DiskDb (DiskId)

structure DiskLocation where
  rackId : ℕ
  nodeId : ℕ
  deriving DecidableEq, Repr

structure DiskGroupEntry where
  dgId : ℕ
  rackId : ℕ
  nodeId : ℕ
  up : Bool
  deriving DecidableEq, Repr

/-- What a publication reads of the topology and of the routing table of the pool. -/
structure TopologySnapshot where
  diskGroups : List DiskGroupEntry
  nodesUp : List (ℕ × ℕ)
  racksUp : List ℕ
  diskioDeadlines : List (ℕ × ℕ)
  disks : List (DiskId × DiskLocation)
  generation : ℕ
  dgForDisk : List (DiskId × ℕ)
  deriving DecidableEq, Repr

namespace TopologySnapshot
variable (snap : TopologySnapshot)

def healthy (nowMs : ℕ) (dg : DiskGroupEntry) : Bool :=
  dg.up && snap.nodesUp.contains (dg.rackId, dg.nodeId) && snap.racksUp.contains dg.rackId &&
    (snap.diskioDeadlines.lookup dg.dgId).all fun deadline => nowMs ≤ deadline

/-- The node and the rack of a segment on a healthy disk group. -/
def locate (nowMs : ℕ) (s : Segment) : Option (ℕ × ℕ) := do
  let disk ← s.diskId
  let dg ← snap.dgForDisk.lookup disk
  let entry ← (snap.diskGroups.find? fun e => e.dgId = dg).filter (snap.healthy nowMs)
  pure (entry.nodeId, entry.rackId)

end TopologySnapshot

/-- How often the most frequent key occurs. -/
def maxLoad {α : Type*} [DecidableEq α] (keys : List α) : ℕ :=
  (keys.map fun k => keys.count k).foldl max 0

def survivorScore (nodes racks : List ℕ) : List ℕ :=
  let loads := nodes.dedup.map fun n => nodes.count n
  [maxLoad nodes, (loads.map fun load => satMul32 load load).sum, u64Max - racks.dedup.length,
    u64Max - nodes.dedup.length]

/-- The segments of a strip that may survive, each with its node and its rack. -/
def survivorOptions (snap : TopologySnapshot) (nowMs : ℕ) (s : ChunkStrip) :
    List (Segment × ℕ × ℕ) :=
  (mirrorSegments s).filterMap fun x => (snap.locate nowMs x).map fun location => (x, location)

/-- The search; `nodes` and `racks` are those of the parity and of the `selected` segments,
and `best` is the best complete choice so far, with its score. -/
def selectSurvivorDfs (maxPerNode : ℕ) : List (List (Segment × ℕ × ℕ)) → List ℕ → List ℕ →
    List Segment → Option (List ℕ × List Segment) → Option (List ℕ × List Segment)
  | [], nodes, racks, selected, best =>
    let score := survivorScore nodes racks
    if maxPerNode < maxLoad nodes then best
    else if best.all fun current => decide (score < current.1) then some (score, selected)
    else best
  | options :: candidates, nodes, racks, selected, best =>
    options.foldl (fun best option =>
      if maxPerNode ≤ nodes.count option.2.1 then best
      else selectSurvivorDfs maxPerNode candidates (option.2.1 :: nodes) (option.2.2 :: racks)
        (selected ++ [option.1]) best) best

def selectConversionSurvivors (snap : TopologySnapshot) (group : StripReservationGroup)
    (allowUnsafe : Bool) (nowMs : ℕ) : Except LifecycleError (List Segment) := do
  let parity ← orFail (group.paritySegments.mapM (snap.locate nowMs)) .stateConflict
  let candidates := group.strips.map (survivorOptions snap nowMs)
  ensure (∀ options ∈ candidates, options ≠ []) .stateConflict
  let maxPerNode := if allowUnsafe then satAdd32 group.dataNum group.codeNum else group.codeNum
  let best := selectSurvivorDfs maxPerNode candidates (parity.map Prod.fst) (parity.map Prod.snd)
    [] none
  orFail (best.map Prod.snd) .stateConflict

def assessPhysicalPlacement (snap : TopologySnapshot) (segments : List Segment) (lossBudget : ℕ)
    (usageFresh : Bool) : PlacementAssessment :=
  let disks := segments.filterMap Segment.diskId
  let locations := disks.filterMap fun disk => snap.disks.lookup disk
  let known := segments.all fun s => (s.diskId.bind fun disk => snap.disks.lookup disk).isSome
  let perRack := maxLoad (locations.map DiskLocation.rackId)
  let perNode := maxLoad (locations.map DiskLocation.nodeId)
  let perDisk := maxLoad disks
  { lossBudget := lossBudget
    maxFragmentsPerRack := perRack
    maxFragmentsPerNode := perNode
    maxFragmentsPerDisk := perDisk
    rackProtected := known && decide (perRack ≤ lossBudget)
    nodeProtected := known && decide (perNode ≤ lossBudget)
    diskProtected := known && decide (perDisk ≤ lossBudget)
    topologyGeneration := snap.generation
    usageFresh := usageFresh }

/-! ## What the search returns -/

/-- A loop that keeps the best result returns the first one or one of a pass. -/
theorem foldl_eq_some {α β : Type*} {f : Option β → α → Option β} {l : List α} {x : β} {P : Prop}
    (hf : ∀ best, ∀ a ∈ l, f best a = some x → best = some x ∨ P) {best : Option β}
    (h : l.foldl f best = some x) : best = some x ∨ P := by
  induction l generalizing best with
  | nil => exact .inl h
  | cons a l ih =>
    rcases ih (fun best b hb => hf best b (mem_cons_of_mem _ hb)) h with h | h
    · exact hf best a mem_cons_self h
    · exact .inr h

/-- A choice the search comes to extends the selected segments by one segment of each
further strip, in their order. -/
theorem selectSurvivorDfs_sublist {maxPerNode : ℕ} {candidates : List (List (Segment × ℕ × ℕ))}
    {nodes racks : List ℕ} {selected : List Segment} {best : Option (List ℕ × List Segment)}
    {found : List ℕ × List Segment}
    (h : selectSurvivorDfs maxPerNode candidates nodes racks selected best = some found) :
    best = some found ∨ ∃ further, found.2 = selected ++ further ∧
      further.Sublist (candidates.flatMap fun options => options.map Prod.fst) := by
  induction candidates generalizing nodes racks selected best with
  | nil =>
    simp only [selectSurvivorDfs] at h
    split at h
    · exact .inl h
    · split at h
      · cases h
        exact .inr ⟨[], by simp, nil_sublist _⟩
      · exact .inl h
  | cons options candidates ih =>
    refine foldl_eq_some (fun best option hoption h => ?_) h
    split at h
    · exact .inl h
    · refine (ih h).imp_right ?_
      rintro ⟨further, hfound, hsub⟩
      have hfirst : [option.1].Sublist (options.map Prod.fst) :=
        singleton_sublist.mpr (mem_map_of_mem hoption)
      exact ⟨option.1 :: further, by simpa using hfound, hfirst.append hsub⟩

lemma survivorOptions_sublist (snap : TopologySnapshot) (nowMs : ℕ) (s : ChunkStrip) :
    ((survivorOptions snap nowMs s).map Prod.fst).Sublist (mirrorSegments s) := by
  unfold survivorOptions
  induction mirrorSegments s with
  | nil => exact Sublist.refl _
  | cons x _ ih =>
    cases hx : snap.locate nowMs x with
    | none => simpa [hx] using ih.cons x
    | some => simpa [hx] using ih

/-- The survivors are copies of the group's strips, none of them taken twice. -/
theorem selectConversionSurvivors_sublist {snap : TopologySnapshot} {group : StripReservationGroup}
    {allowUnsafe : Bool} {nowMs : ℕ} {selected : List Segment}
    (h : selectConversionSurvivors snap group allowUnsafe nowMs = .ok selected) :
    selected.Sublist (group.strips.flatMap mirrorSegments) := by
  simp only [selectConversionSurvivors, bind_eq_ok, orFail_eq_ok, Option.map_eq_some_iff] at h
  obtain ⟨parity, -, -, -, found, hfound, rfl⟩ := h
  rcases selectSurvivorDfs_sublist hfound with h | ⟨further, hsel, hsub⟩
  · cases h
  · rw [hsel]
    refine hsub.trans ?_
    induction group.strips with
    | nil => exact Sublist.refl _
    | cons s _ ih => exact (survivorOptions_sublist snap nowMs s).append ih

end CrowDB.ChunkDb
