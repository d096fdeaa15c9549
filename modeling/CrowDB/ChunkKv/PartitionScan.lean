import CrowDB.BTree.ScanSpec
import CrowDB.ChunkKv.Types
import CrowDB.Lib.Check

/-!
# Scans of a partition

A partition clips the bounds of a scan to its range and hands them to the tree, which takes an
empty slice for a missing bound. A reader gets the next page with the last key of the page
before. The pages are exact but for two kinds of requests: an end bound that is the empty key,
and a first page that holds the empty key alone although more keys follow.
-/
namespace CrowDB.ChunkKv
open Lib List Option
open Paxos (Bytes)
open BTree (ScanArgs ScanEntry ScanOut)

/-! ## The tree of a partition -/

/-- `CrowdbPartitionTree::scan_forward`. -/
def treeScanForward (tree : BTree.Tree) (start : Option Key) (inclusive : Bool) (stop : Option Key)
    (limit byteBudget : ℕ) : ScanOut :=
  match start, inclusive with
  | some startAfter, false => tree.scan
      { startAfter := startAfter
        endKey := stop.getD []
        limit := limit
        byteBudget := byteBudget
        hasStartBound := !startAfter.isEmpty }
  | some startKey, true => tree.scan
      { startAfter := startKey
        endKey := stop.getD []
        limit := limit
        byteBudget := byteBudget
        hasStartBound := true
        startInclusive := true }
  | none, _ => tree.scan
      { endKey := stop.getD []
        limit := limit
        byteBudget := byteBudget }

/-- `CrowdbPartitionTree::scan_reverse`. -/
def treeScanReverse (tree : BTree.Tree) (startBefore beginKey : Option Key)
    (limit byteBudget : ℕ) : ScanOut :=
  tree.scanReverse (startBefore.map fun key => (key, false)) (beginKey.getD []) limit byteBudget

/-! ## The partition -/

/-- What a read of the partition looks at. -/
structure PartitionReader where
  ownershipEpoch : ℕ
  lifecycle : PartitionLifecycle
  maxKeyBytes : ℕ
  range : PartitionRange
  tree : BTree.Tree

abbrev ScanPage := List ScanEntry × Bool

namespace PartitionReader

def validateReadLifecycle (p : PartitionReader) : Except ChunkKvError Unit :=
  match p.lifecycle with
  | .serving | .transferQuiesced | .splitPreparing | .splitFinalizing => .ok ()
  | .recovering => .error .recovering
  | .faulted => .error (.faulted "partition faulted")
  | state => .error (.notServing state)

/-- The checks that forward and reverse scans start with. -/
def validateScan (p : PartitionReader) (ownershipEpoch : ℕ) (lower upper : Option Key)
    (limit byteBudget : ℕ) : Except ChunkKvError Unit := do
  ensure (ownershipEpoch = p.ownershipEpoch) .staleEpoch
  p.validateReadLifecycle
  ensure (limit ≠ 0 ∧ byteBudget ≠ 0) (.invalidRequest "scan count and byte bounds must be nonzero")
  ensure (lower.all (fun key => decide (key.length ≤ p.maxKeyBytes)) = true ∧
      upper.all (fun key => decide (key.length ≤ p.maxKeyBytes)) = true)
    (.invalidRequest "scan bound exceeds configured key limit")
  ensure (¬ (lower.any fun l => upper.any fun u => decide (u ≤ l)) = true)
    (.invalidRequest "scan interval is empty or reversed")

/-- The requested interval does not meet the range. -/
def disjoint (p : PartitionReader) (lower upper : Option Key) : Bool :=
  (lower.any fun l => p.range.stop.any fun stop => decide (stop ≤ l))
    || upper.any fun u => p.range.start.any fun start => decide (u ≤ start)

/-- A start before the range is no bound. -/
def clipStart (start rangeStart : Option Key) : Option Key :=
  match start, rangeStart with
  | some s, some rangeStart => if s < rangeStart then none else some s
  | s, _ => s

/-- The smaller of two upper bounds. -/
def clipUpper (upper rangeStop : Option Key) : Option Key :=
  match upper, rangeStop with
  | some u, some stop => some (min u stop)
  | some u, none => some u
  | none, stop => stop

/-- The larger of two lower bounds. -/
def clipLower (lower rangeStart : Option Key) : Option Key :=
  match lower, rangeStart with
  | some l, some start => some (max l start)
  | some l, none => some l
  | none, start => start

section
variable (p : PartitionReader) (ownershipEpoch : ℕ)

def scanForwardBound (start : Option Key) (inclusive : Bool) (stop : Option Key)
    (limit byteBudget : ℕ) :
    Except ChunkKvError ScanPage := do
  p.validateScan ownershipEpoch start stop limit byteBudget
  if p.disjoint start stop then return ([], false)
  let out := treeScanForward p.tree (clipStart start p.range.start) inclusive
    (clipUpper stop p.range.stop) limit byteBudget
  ensure (out.entries.all fun e => p.range.contains e.key)
    (.treeCorruption "tree scan returned a key outside the partition")
  return (out.entries, out.truncated)

def scanForward (start stop : Option Key) (limit byteBudget : ℕ) : Except ChunkKvError ScanPage :=
  p.scanForwardBound ownershipEpoch start true stop limit byteBudget

def scanForwardAfter (startAfter : Key) (stop : Option Key) (limit byteBudget : ℕ)
    : Except ChunkKvError ScanPage :=
  p.scanForwardBound ownershipEpoch (some startAfter) false stop limit byteBudget

def scanReverse (startBefore beginKey : Option Key) (limit byteBudget : ℕ)
    : Except ChunkKvError ScanPage := do
  p.validateScan ownershipEpoch beginKey startBefore limit byteBudget
  if p.disjoint beginKey startBefore then return ([], false)
  let out := treeScanReverse p.tree (clipUpper startBefore p.range.stop)
    (clipLower beginKey p.range.start) limit byteBudget
  ensure ((out.entries.all fun e => p.range.contains e.key) = true ∧
      out.entries.IsChain fun a b => b.key < a.key)
    (.treeCorruption "tree reverse scan returned invalid key order or range")
  return (out.entries, out.truncated)

end

/-! ## Reading page by page -/

section
variable (p : PartitionReader) (lower upper : Option Key)

/-- The first page of an interval, or the page behind an entry. -/
def forwardPage (limit byteBudget : ℕ) :
    Option ScanEntry → Except ChunkKvError ScanPage
  | none => p.scanForward p.ownershipEpoch lower upper limit byteBudget
  | some last => p.scanForwardAfter p.ownershipEpoch last.key upper limit byteBudget

def reversePage (limit byteBudget : ℕ) (last : Option ScanEntry) : Except ChunkKvError ScanPage :=
  p.scanReverse p.ownershipEpoch (last.elim upper fun e => some e.key) lower limit byteBudget

/-- The live keys of the partition in an interval, with what counts for them. -/
def visible : List ScanEntry :=
  ScanArgs.showAll { limit := 0, byteBudget := 0 } (p.tree.contents.filter fun e =>
    p.range.contains e.key && lower.all (fun l => decide (l ≤ e.key))
      && upper.all fun u => decide (e.key < u))

end

/-- A partition that serves reads: its keys are in its range and were admitted under the limit
of their length. -/
structure Ok (p : PartitionReader) : Prop where
  tree : p.tree.Ok
  inside : ∀ e ∈ p.tree.contents, p.range.contains e.key = true ∧
    p.tree.range.contains e.key = true ∧ e.key.length ≤ p.maxKeyBytes
  readable : p.validateReadLifecycle = .ok ()

/-- All live keys. -/
def live (p : PartitionReader) : List ScanEntry :=
  ScanArgs.showAll { limit := 0, byteBudget := 0 } p.tree.contents

def startsAt (start : Option Key) (inclusive : Bool) (key : Key) : Bool :=
  start.all fun s => if inclusive then decide (s ≤ key) else decide (s < key)

def endsAt (stop : Option Key) (key : Key) : Bool := stop.all fun s => decide (key < s)

end PartitionReader

open PartitionReader BTree BTree.ScanArgs

variable {x : ScanEntry}

section Forward
variable {p : PartitionReader} {start stop : Option Key} {inclusive : Bool} {limit byteBudget : ℕ}

lemma PartitionReader.Ok.live_ascending (h : p.Ok) : Ascending ScanEntry.key p.live :=
  showAll_ascending _ h.tree.contents_ascending

lemma PartitionReader.Ok.live_inside (h : p.Ok) (hx : x ∈ p.live) :
    p.range.contains x.key = true ∧ x.key.length ≤ p.maxKeyBytes := by
  obtain ⟨e, he, hkey⟩ := mem_showAll hx
  obtain ⟨hr, -, hlen⟩ := h.inside e he
  exact ⟨hkey ▸ hr, hkey ▸ hlen⟩

lemma PartitionReader.Ok.visible_eq (h : p.Ok) (lower upper : Option Key) :
    p.visible lower upper =
      p.live.filter fun e => startsAt lower true e.key && endsAt upper e.key := by
  rw [live, ← showAll_filter _ _ fun k =>
    startsAt lower true k && endsAt upper k, visible]
  congr 1
  refine filter_congr fun e he => ?_
  rw [(h.inside e he).1]
  rfl

/-- The tree takes an empty end and an excluded empty start for missing bounds. -/
theorem PartitionReader.Ok.treeScanForward_eq (h : p.Ok) (start stop : Option Key)
    (inclusive : Bool) (limit byteBudget : ℕ) :
    ((treeScanForward p.tree start inclusive stop limit byteBudget).entries,
      (treeScanForward p.tree start inclusive stop limit byteBudget).truncated) =
    page ScanEntry.size limit byteBudget (p.live.filter fun e =>
      (startsAt start inclusive e.key || (start == some [] && !inclusive))
        && (stop.getD [] == [] || endsAt stop e.key)) := by
  have hscan : ∀ a : ScanArgs, a.keyPrefix = [] → a.keysOnly = false → a.limit = limit →
      a.byteBudget = byteBudget →
      ((p.tree.scan a).entries, (p.tree.scan a).truncated) =
        page ScanEntry.size limit byteBudget (p.live.filter fun e =>
          a.started e.key && (a.endKey.isEmpty || decide (e.key < a.endKey))) := by
    intro a hpre hkeys hl hb
    rw [h.tree.scan_eq fun _ _ _ => hpre, ScanOut.extend_page]
    congr 1
    have hshown : a.shown = shown { limit := 0, byteBudget := 0 } := by
      funext e value
      simp [shown, hkeys]
    rw [live, ← showAll_filter _ _ fun k =>
      a.started k && (a.endKey.isEmpty || decide (k < a.endKey)), showAll, hshown]
    congr 1
    refine filter_congr fun e he => ?_
    simp [asks, (h.inside e he).2.1, hpre]
  have hend : ∀ key : Key, ((stop.getD []).isEmpty || decide (key < stop.getD [])) =
      (stop.getD [] == [] || endsAt stop key) := by
    intro key
    cases stop with
    | none => rfl
    | some s => cases s <;> rfl
  unfold treeScanForward
  split
  all_goals
    rw [hscan _ rfl rfl rfl rfl]
    congr 2
    funext e
    rw [hend]
  next s => cases s <;> simp [started, bounded, startsAt]
  · simp [started, bounded, startsAt]
  · congr 1

lemma contains_bounds {r : PartitionRange} {key : Key} (h : r.contains key = true) :
    (∀ s, r.start = some s → s ≤ key) ∧ ∀ s, r.stop = some s → key < s := by
  simp only [PartitionRange.contains, Bool.and_eq_true] at h
  constructor
  · intro s hs
    simpa [hs] using h.1
  · intro s hs
    simpa [hs] using h.2

/-- The keys that a forward scan finds: an excluded empty start does not exclude anything, and
an empty end is no end when the range has no start. -/
def found (p : PartitionReader) (start : Option Key) (inclusive : Bool) (stop : Option Key)
    (key : Key) : Bool :=
  (startsAt start inclusive key || (start == some [] && !inclusive))
    && (endsAt stop key || (stop == some [] && p.range.start.isNone))

/-- Clipping changes nothing for the keys of the partition. -/
theorem PartitionReader.Ok.clipped (h : p.Ok) (hnot : p.disjoint start stop = false)
    (hx : x ∈ p.live) :
    ((startsAt (clipStart start p.range.start) inclusive x.key ||
        (clipStart start p.range.start == some [] && !inclusive)) &&
      ((clipUpper stop p.range.stop).getD [] == [] ||
        endsAt (clipUpper stop p.range.stop) x.key)) =
      found p start inclusive stop x.key := by
  obtain ⟨hlow, hhigh⟩ := contains_bounds (h.live_inside hx).1
  simp only [disjoint] at hnot
  congr 1
  · cases start with
    | none => rfl
    | some s =>
      cases hrs : p.range.start with
      | none => rfl
      | some rs =>
        simp only [clipStart]
        split
        next hlt =>
          have hle := hlow rs hrs
          have hin : startsAt (some s) inclusive x.key = true := by
            simp only [startsAt]
            split
            · exact decide_eq_true (hlt.le.trans hle)
            · exact decide_eq_true (hlt.trans_le hle)
          rw [hin]
          rfl
        · rfl
  · cases hstop : stop with
    | none =>
      simp only [clipUpper, endsAt, all_none]
      cases hrs : p.range.stop with
      | none => rfl
      | some rs => simp [hhigh rs hrs]
    | some u =>
      have hstart : u = [] → p.range.start = none := by
        rintro rfl
        by_contra hne
        obtain ⟨rs, hrs⟩ := ne_none_iff_exists'.mp hne
        simp [hstop, hrs] at hnot
      have hne : ∀ v : Key, x.key < v → v ≠ [] := by
        rintro v hv rfl
        exact absurd hv (not_lt_nil _)
      have hempty : (u == []) = (some u == some [] && p.range.start.isNone) := by
        by_cases hu : u = []
        · simp [hstart hu]
        · simp [hu]
      cases hrs : p.range.stop with
      | none =>
        simp only [clipUpper, getD_some, hempty]
        exact Bool.or_comm _ _
      | some rs =>
        have hlt := hhigh rs hrs
        have hmin : (min u rs == []) = (u == []) := by
          have hrs' := hne rs hlt
          rcases le_total u rs with hle | hle
          · rw [min_eq_left hle]
          · rw [min_eq_right hle]
            have hu : u ≠ [] := by
              rintro rfl
              exact hrs' (le_nil.mp hle)
            rw [beq_eq_false_iff_ne.mpr hu, beq_eq_false_iff_ne.mpr hrs']
        have hends : endsAt (some (min u rs)) x.key = endsAt (some u) x.key := by
          simp [endsAt, hlt]
        simp only [clipUpper, getD_some, hmin, hends, hempty]
        exact Bool.or_comm _ _

/-- An interval that does not meet the range holds no key of the partition. -/
theorem PartitionReader.Ok.found_disjoint (h : p.Ok) (hnot : p.disjoint start stop = true)
    (hx : x ∈ p.live) : found p start inclusive stop x.key = false := by
  obtain ⟨hlow, hhigh⟩ := contains_bounds (h.live_inside hx).1
  simp only [disjoint, Bool.or_eq_true, Option.any_eq_true,
    decide_eq_true_eq] at hnot
  unfold found
  rcases hnot with ⟨s, rfl, rs, hrs, hle⟩ | ⟨u, rfl, rs, hrs, hle⟩
  · have hlt : x.key < s := (hhigh rs hrs).trans_le hle
    have hs : s ≠ [] := by
      rintro rfl
      exact absurd hlt (not_lt_nil _)
    have hstart : startsAt (some s) inclusive x.key = false := by
      simp only [startsAt]
      split
      · exact decide_eq_false hlt.not_ge
      · exact decide_eq_false hlt.asymm
    simp [hstart, hs]
  · have hend : endsAt (some u) x.key = false := by
      simpa [endsAt] using hle.trans (hlow rs hrs)
    simp [hend, hrs]

/-- A page of live keys lies in the range. -/
theorem PartitionReader.Ok.all_inside {out : ScanOut} {l : List ScanEntry} (h : p.Ok)
    (hl : ∀ x ∈ l, x ∈ p.live)
    (hout : (out.entries, out.truncated) = page ScanEntry.size limit byteBudget l) :
    (out.entries.all fun e => p.range.contains e.key) = true := by
  obtain ⟨rest, hsplit, -⟩ : ∃ rest, l = (page ScanEntry.size limit byteBudget l).1 ++ rest ∧ _ :=
    page_split l
  rw [← hout] at hsplit
  refine all_eq_true.mpr fun x hx => (h.live_inside (hl x ?_)).1
  rw [hsplit]
  exact mem_append_left _ hx

lemma PartitionReader.Ok.scanForwardBound_eq (h : p.Ok)
    (hvalid : p.validateScan p.ownershipEpoch start stop limit byteBudget = .ok ()) :
    p.scanForwardBound p.ownershipEpoch start inclusive stop limit byteBudget =
      .ok (page ScanEntry.size limit byteBudget
        (p.live.filter fun e => found p start inclusive stop e.key)) := by
  refine bind_eq_ok.mpr ⟨(), hvalid, ?_⟩
  split
  next hdis =>
    rw [filter_eq_nil_iff.mpr fun x hx => by simp [h.found_disjoint hdis hx]]
    rfl
  next hdis =>
    rw [Bool.not_eq_true] at hdis
    have htree := h.treeScanForward_eq (clipStart start p.range.start)
      (clipUpper stop p.range.stop) inclusive limit byteBudget
    rw [filter_congr fun x => h.clipped hdis] at htree
    rw [← htree]
    refine bind_eq_ok.mpr ⟨(), ensure_eq_ok.mpr ?_, rfl⟩
    exact h.all_inside (fun _ hx => (mem_filter.mp hx).1) htree

end Forward
section Reverse
variable {p : PartitionReader} {lower upper : Option Key} {limit byteBudget : ℕ}

lemma showAll_live (a : ScanArgs) (es : List BTree.Entry) (q : BTree.Entry → Bool) :
    a.showAll (es.filter fun e => q e && e.live) = a.showAll (es.filter q) := by
  rw [showAll, showAll, filterMap_filter, filterMap_filter]
  congr 1
  funext e
  cases hv : e.cell.value <;> by_cases hq : q e = true <;> simp [BTree.Entry.live, hv]

lemma visible_mem (h : p.Ok) (hx : x ∈ p.visible lower upper) :
    x ∈ p.live ∧ startsAt lower true x.key = true ∧ endsAt upper x.key = true := by
  rw [h.visible_eq] at hx
  obtain ⟨hlive, hin⟩ := mem_filter.mp hx
  rw [Bool.and_eq_true] at hin
  exact ⟨hlive, hin⟩

lemma visible_ascending (h : p.Ok) : Ascending ScanEntry.key (p.visible lower upper) := by
  rw [h.visible_eq]
  exact h.live_ascending.filter _

lemma PartitionReader.Ok.treeScanReverse_eq (h : p.Ok) (upper lower : Option Key)
    (limit byteBudget : ℕ) :
    ((treeScanReverse p.tree upper lower limit byteBudget).entries,
      (treeScanReverse p.tree upper lower limit byteBudget).truncated) =
    page ScanEntry.size limit byteBudget (p.visible lower upper).reverse := by
  rw [treeScanReverse, h.tree.scanReverse_eq, ScanOut.extend_page]
  congr 1
  have hrev : ∀ es : List BTree.Entry, showAll { limit := limit, byteBudget := byteBudget }
      es.reverse = (showAll { limit := 0, byteBudget := 0 } es).reverse :=
    fun es => filterMap_reverse
  rw [hrev, Tree.wanted, showAll_live, List.filter_filter]
  congr 2
  refine filter_congr fun e he => ?_
  have hlow : ((lower.getD []).isEmpty || decide (lower.getD [] ≤ e.key)) =
      startsAt lower true e.key := by
    cases lower with
    | none => rfl
    | some l =>
      cases l with
      | nil => exact (decide_eq_true (nil_le e.key)).symm
      | cons => rfl
  have hhigh : Below.admits (upper.map fun key => (key, false)) e.key = endsAt upper e.key := by
    cases upper <;> rfl
  rw [asksReverse, (h.inside e he).2.1, (h.inside e he).1, hlow, hhigh]
  rfl

lemma PartitionReader.Ok.scanReverse_eq (h : p.Ok)
    (hvalid : p.validateScan p.ownershipEpoch lower upper limit byteBudget = .ok ()) :
    p.scanReverse p.ownershipEpoch upper lower limit byteBudget =
      .ok (page ScanEntry.size limit byteBudget (p.visible lower upper).reverse) := by
  refine bind_eq_ok.mpr ⟨(), hvalid, ?_⟩
  split
  next hdis =>
    have hnil : p.visible lower upper = [] := by
      rw [h.visible_eq]
      refine filter_eq_nil_iff.mpr fun x hx => ?_
      obtain ⟨hlow, hhigh⟩ := contains_bounds (h.live_inside hx).1
      simp only [disjoint, Bool.or_eq_true, Option.any_eq_true, decide_eq_true_eq] at hdis
      rcases hdis with ⟨s, rfl, rs, hrs, hle⟩ | ⟨u, rfl, rs, hrs, hle⟩
      · simp [startsAt, (hhigh rs hrs).trans_le hle]
      · simp [endsAt, hle.trans (hlow rs hrs)]
    rw [hnil]
    rfl
  next hdis =>
    have hclip : p.visible (clipLower lower p.range.start) (clipUpper upper p.range.stop)
        = p.visible lower upper := by
      rw [h.visible_eq, h.visible_eq]
      refine filter_congr fun x hx => ?_
      obtain ⟨hlow, hhigh⟩ := contains_bounds (h.live_inside hx).1
      congr 1
      · cases hrs : p.range.start with
        | none => cases lower <;> rfl
        | some rs => cases lower <;> simp [clipLower, startsAt, hlow rs hrs]
      · cases hrs : p.range.stop with
        | none => cases upper <;> rfl
        | some rs => cases upper <;> simp [clipUpper, endsAt, hhigh rs hrs]
    have htree := h.treeScanReverse_eq (clipUpper upper p.range.stop)
      (clipLower lower p.range.start) limit byteBudget
    rw [hclip] at htree
    rw [← htree]
    refine bind_eq_ok.mpr ⟨(), ensure_eq_ok.mpr ⟨?_, ?_⟩, rfl⟩
    · exact h.all_inside (fun _ hx => (visible_mem h (mem_reverse.mp hx)).1) htree
    · -- a page of the reversed list descends
      have hdesc : (p.visible lower upper).reverse.Pairwise fun a b => b.key < a.key :=
        pairwise_reverse.mpr (visible_ascending h)
      obtain ⟨rest, hsplit, -⟩ :
          ∃ rest, _ = (page ScanEntry.size limit byteBudget _).1 ++ rest ∧ _ :=
        page_split (p.visible lower upper).reverse
      rw [hsplit, ← htree] at hdesc
      exact (pairwise_append.mp hdesc).1.isChain

end Reverse
/-! ## Pages -/

/-- The request names a key behind its own end. -/
def reversed (lower upper : Option Key) : Bool :=
  lower.any fun l => upper.any fun u => decide (u ≤ l)

/-- Reading page by page ends with the expected entries. -/
def PagesExactly (query : Option ScanEntry → Except ChunkKvError ScanPage)
    (expected : List ScanEntry) : Prop :=
  ∃ fuel, ∀ n, fuel ≤ n → readPages query n none = some (.ok expected)

section
variable (p : PartitionReader) (lower upper : Option Key)

/-- Both directions read exactly the keys of the interval; an interval that is empty or reversed
is refused. -/
def ScansExactly (limit byteBudget : ℕ) : Prop :=
  if reversed lower upper then
    p.forwardPage lower upper limit byteBudget none =
        .error (.invalidRequest "scan interval is empty or reversed") ∧
      p.reversePage lower upper limit byteBudget none =
        .error (.invalidRequest "scan interval is empty or reversed")
  else
    PagesExactly (p.forwardPage lower upper limit byteBudget) (p.visible lower upper) ∧
      PagesExactly (p.reversePage lower upper limit byteBudget) (p.visible lower upper).reverse

/-- The end is the empty key, nothing shows that the interval is empty, and there are keys. -/
def EmptyEnd : Prop :=
  lower = none ∧ upper = some [] ∧ p.range.start = none ∧ p.live ≠ []

/-- The first page holds the empty key and nothing else, and more keys follow. -/
def LonelyEmptyKey (limit byteBudget : ℕ) : Prop :=
  ∃ a b rest, p.visible lower upper = a :: b :: rest ∧ a.key = [] ∧
    (limit = 1 ∨ byteBudget < a.size + b.size)

end

section Pages
variable {p : PartitionReader} {lower upper : Option Key} {limit byteBudget : ℕ}

lemma not_reversed_of_endsAt {key : Key} (h : endsAt upper key = true) :
    reversed (some key) upper = false := by
  cases upper with
  | none => rfl
  | some => simpa [reversed, endsAt] using h

variable {a : ScanEntry}

/-- Behind a key of the interval the interval goes on to its end. -/
theorem visible_behind (h : p.Ok) (ha : a ∈ p.visible lower upper) :
    (p.visible lower upper).filter (fun e => decide (a.key < e.key)) =
      p.live.filter fun e => startsAt (some a.key) false e.key && endsAt upper e.key := by
  rw [h.visible_eq, List.filter_filter]
  refine filter_congr fun x _ => ?_
  by_cases hlt : a.key < x.key
  · have hstart : startsAt lower true x.key = true := by
      have := (visible_mem h ha).2.1
      cases lower with
      | none => rfl
      | some l =>
        have hl : l ≤ a.key := by simpa [startsAt] using this
        simpa [startsAt] using hl.trans hlt.le
    simp [startsAt, hlt] at hstart ⊢
    exact fun _ => hstart
  · simp [startsAt, hlt]

/-- Before a key of the interval it begins as before. -/
theorem visible_before (h : p.Ok) (ha : a ∈ p.visible lower upper) :
    (p.visible lower upper).filter (fun e => decide (e.key < a.key)) =
      p.visible lower (some a.key) := by
  rw [h.visible_eq, h.visible_eq, List.filter_filter]
  refine filter_congr fun x _ => ?_
  by_cases hlt : x.key < a.key
  · have hend : endsAt upper x.key = true := by
      have := (visible_mem h ha).2.2
      cases upper with
      | none => rfl
      | some u =>
        have hu : a.key < u := by simpa [endsAt] using this
        simpa [endsAt] using hlt.trans hu
    simp [endsAt, hlt]
    exact fun _ => hend
  · simp [endsAt, hlt]

/-- Apart from the two exceptions a forward scan finds what it asks for. -/
theorem filter_found {start : Option Key} {inclusive : Bool}
    (hstart : start = some [] → inclusive = true)
    (hend : upper = some [] → p.range.start = none → p.live = []) :
    p.live.filter (fun e => found p start inclusive upper e.key) =
      p.live.filter fun e => startsAt start inclusive e.key && endsAt upper e.key := by
  refine filter_congr fun x hx => ?_
  have hs : (start == some [] && !inclusive) = false := by
    by_cases hs : start = some []
    · simp [hstart hs]
    · simp [hs]
  have hu : (upper == some [] && p.range.start.isNone) = false := by
    by_cases hu : upper = some [] ∧ p.range.start = none
    · rw [hend hu.1 hu.2] at hx
      cases hx
    · rw [not_and] at hu
      by_cases hup : upper = some []
      · simpa [hup, isSome_iff_ne_none] using hu hup
      · simp [hup]
  rw [found, hs, hu, Bool.or_false, Bool.or_false]

lemma page_cons_cons (byteBudget : ℕ) (a b : ScanEntry) (rest : List ScanEntry)
    (hlimit : 1 ≤ limit) :
    (page ScanEntry.size limit byteBudget (a :: b :: rest)).1 = a ::
      (takePage ScanEntry.size limit byteBudget 1 a.size (b :: rest)).1 ∧
    (page ScanEntry.size limit byteBudget (a :: b :: rest)).2 =
      (takePage ScanEntry.size limit byteBudget 1 a.size (b :: rest)).2 := by
  have hfit : fits ScanEntry.size limit byteBudget 0 0 a = true := by
    simp only [fits, beq_self_eq_true, Bool.or_true, Bool.true_or, Bool.and_true, Bool.or_eq_true,
      decide_eq_true_eq]
    omega
  simp [page, takePage, hfit]

/-- The page ends behind the first entry exactly when the second one does not fit. -/
theorem fits_second_iff {b : ScanEntry} (hlimit : 1 ≤ limit) (hbudget : 1 ≤ byteBudget) :
    fits ScanEntry.size limit byteBudget 1 a.size b = false ↔
      limit = 1 ∨ byteBudget < a.size + b.size := by
  rw [fits_eq_false_iff]
  omega

section Asked
variable (h : p.Ok) (hlimit : 1 ≤ limit) (hbudget : 1 ≤ byteBudget)
  (hlower : lower.all (fun key => decide (key.length ≤ p.maxKeyBytes)) = true)
  (hupper : upper.all (fun key => decide (key.length ≤ p.maxKeyBytes)) = true)
include h hlimit hbudget hlower hupper

lemma validateScan_ok (hrev : reversed lower upper = false) :
    p.validateScan p.ownershipEpoch lower upper limit byteBudget = .ok () := by
  refine bind_eq_ok.mpr ⟨(), ensure_eq_ok.mpr rfl, bind_eq_ok.mpr ⟨(), h.readable, ?_⟩⟩
  refine bind_eq_ok.mpr ⟨(), ensure_eq_ok.mpr ⟨by omega, by omega⟩, ?_⟩
  refine bind_eq_ok.mpr ⟨(), ensure_eq_ok.mpr ⟨hlower, hupper⟩, ensure_eq_ok.mpr ?_⟩
  exact Bool.not_eq_true _ ▸ hrev

lemma validateScan_reversed (hrev : reversed lower upper = true) :
    p.validateScan p.ownershipEpoch lower upper limit byteBudget =
      .error (.invalidRequest "scan interval is empty or reversed") := by
  have hl : limit ≠ 0 ∧ byteBudget ≠ 0 := ⟨by omega, by omega⟩
  unfold reversed at hrev
  simp [validateScan, ensure, h.readable, hl, hlower, hupper, hrev, bind,
    Except.bind]

omit hlower in
lemma validateScan_behind (ha : a ∈ p.visible lower upper) :
    p.validateScan p.ownershipEpoch (some a.key) upper limit byteBudget = .ok () := by
  obtain ⟨hlive, -, hends⟩ := visible_mem h ha
  exact validateScan_ok h hlimit hbudget (by simpa using (h.live_inside hlive).2) hupper
    (not_reversed_of_endsAt hends)

section
variable (hrev : reversed lower upper = false)
include hrev

lemma reverse_pages :
    PagesExactly (p.reversePage lower upper limit byteBudget) (p.visible lower upper).reverse := by
  refine ⟨(p.visible lower upper).reverse.length + 1, fun n hn => ?_⟩
  refine readPages_eq ScanEntry.size limit byteBudget
    (fun a => ((p.visible lower upper).filter fun e => decide (e.key < a.key)).reverse)
    ?_ ?_ ?_ n hn
  · rw [reversePage, elim_none,
      h.scanReverse_eq (validateScan_ok h hlimit hbudget hlower hupper hrev)]
  · intro front a back hsplit
    have hvis : p.visible lower upper = back.reverse ++ a :: front.reverse := by
      rw [← reverse_reverse (p.visible lower upper), hsplit]
      simp
    rw [filter_before (visible_ascending h) hvis, reverse_reverse]
  · intro front a back hsplit hback _
    have hmem : a ∈ p.visible lower upper := by
      rw [← mem_reverse, hsplit]
      simp
    obtain ⟨hlive, hstart, -⟩ := visible_mem h hmem
    obtain ⟨b, hb⟩ := exists_mem_of_ne_nil back hback
    -- another key stands before the last one, so the interval is not empty
    have hb' : b ∈ p.visible lower upper := by
      rw [← mem_reverse, hsplit]
      simp [hb]
    have hlt : b.key < a.key := by
      have hasc : Ascending ScanEntry.key (p.visible lower upper) := visible_ascending h
      have hdesc := pairwise_reverse.mpr hasc
      rw [hsplit] at hdesc
      exact (pairwise_cons.mp (pairwise_append.mp hdesc).2.1).1 b hb
    have hvalid : p.validateScan p.ownershipEpoch lower (some a.key) limit byteBudget = .ok () := by
      refine validateScan_ok h hlimit hbudget hlower ?_ ?_
      · simpa using (h.live_inside hlive).2
      · cases lower with
        | none => rfl
        | some l =>
          have hl : l ≤ b.key := by simpa [startsAt] using (visible_mem h hb').2.1
          simpa [reversed] using hl.trans_lt hlt
    rw [reversePage, elim_some, h.scanReverse_eq hvalid, visible_before h hmem]

lemma forward_pages (hend : ¬ EmptyEnd p lower upper)
    (hlonely : ¬ LonelyEmptyKey p lower upper limit byteBudget) :
    PagesExactly (p.forwardPage lower upper limit byteBudget) (p.visible lower upper) := by
  have hend' : upper = some [] → p.range.start = none → p.live = [] := by
    intro hu hs
    by_contra hne
    have hl : lower = none := by
      cases lower with
      | none => rfl
      | some => simp [reversed, hu] at hrev
    exact hend ⟨hl, hu, hs, hne⟩
  refine ⟨(p.visible lower upper).length + 1, fun n hn => ?_⟩
  refine readPages_eq ScanEntry.size limit byteBudget
    (fun a => (p.visible lower upper).filter fun e => decide (a.key < e.key)) ?_ ?_ ?_ n hn
  · rw [forwardPage, scanForward,
      h.scanForwardBound_eq (validateScan_ok h hlimit hbudget hlower hupper hrev),
      filter_found (fun _ => rfl) hend', h.visible_eq]
  · intro front a back hsplit
    exact filter_behind (visible_ascending h) hsplit
  · intro front a back hsplit hback hlen
    have hmem : a ∈ p.visible lower upper := by
      rw [hsplit]
      simp
    -- the empty key is not the last one of a page that ends early
    have hkey : some a.key = some [] → false = true := by
      intro hkey
      have hkey : a.key = [] := some.inj hkey
      exfalso
      have hfront : front = [] := by
        cases front with
        | nil => rfl
        | cons =>
          have hasc : Ascending ScanEntry.key (p.visible lower upper) := visible_ascending h
          rw [hsplit] at hasc
          have := (pairwise_cons.mp hasc).1 a (by simp)
          rw [hkey] at this
          exact absurd this (not_lt_nil _)
      obtain ⟨b, rest, rfl⟩ := exists_cons_of_ne_nil hback
      rw [hfront, nil_append] at hsplit
      refine hlonely ⟨a, b, rest, hsplit, hkey, (fits_second_iff hlimit hbudget).mp ?_⟩
      by_contra hfit
      rw [Bool.not_eq_false] at hfit
      rw [hsplit, hfront, (page_cons_cons byteBudget a b rest hlimit).1, takePage,
        if_pos hfit] at hlen
      simp at hlen
    rw [forwardPage, scanForwardAfter,
      h.scanForwardBound_eq (validateScan_behind h hlimit hbudget hupper hmem),
      filter_found hkey hend', visible_behind h hmem]

/-- A reader that has got the empty key alone gets it again. -/
theorem not_exact_of_lonely (hlonely : LonelyEmptyKey p lower upper limit byteBudget) :
    ¬ PagesExactly (p.forwardPage lower upper limit byteBudget) (p.visible lower upper) := by
  obtain ⟨a, b, rest, hvis, hkey, hbig⟩ := hlonely
  have hmem : a ∈ p.visible lower upper := by simp [hvis]
  obtain ⟨-, hstarts, hends⟩ := visible_mem h hmem
  have hupper' : upper ≠ some [] := by
    rintro rfl
    simp [endsAt] at hends
  have hlower' : ∀ key, startsAt lower true key = true := by
    intro key
    cases lower with
    | none => rfl
    | some l =>
      have hl : l = [] := by simpa [startsAt, hkey] using hstarts
      simp [startsAt, hl]
  have hpage : page ScanEntry.size limit byteBudget (p.visible lower upper) = ([a], true) := by
    have hsecond := (fits_second_iff hlimit hbudget).mpr hbig
    have hcons := page_cons_cons byteBudget a b rest hlimit
    rw [takePage, if_neg (by rw [hsecond]; decide)] at hcons
    rw [hvis]
    exact Prod.ext hcons.1 hcons.2
  have hfirst : p.forwardPage lower upper limit byteBudget none = .ok ([a], true) := by
    rw [forwardPage, scanForward,
      h.scanForwardBound_eq (validateScan_ok h hlimit hbudget hlower hupper hrev),
      filter_found (fun _ => rfl) (fun hu => absurd hu hupper'), ← h.visible_eq, hpage]
  have hagain : p.forwardPage lower upper limit byteBudget (some a) = .ok ([a], true) := by
    rw [forwardPage, scanForwardAfter,
      h.scanForwardBound_eq (validateScan_behind h hlimit hbudget hupper hmem), ← hpage,
      h.visible_eq]
    congr 3
    funext e
    simp [found, hkey, hlower', hupper']
  have hloop : ∀ n, readPages (p.forwardPage lower upper limit byteBudget) n (some a) = none := by
    intro n
    induction n with
    | zero => rfl
    | succ _ ih =>
      rw [readPages, hagain]
      simp [ih]
  rintro ⟨fuel, hread⟩
  have := hread (fuel + 1) (Nat.le_succ _)
  rw [readPages, hfirst] at this
  simp [hloop] at this

end

end Asked

/-- With the empty key as its end the scan returns keys although the interval has none. -/
theorem not_exact_of_emptyEnd (h : p.Ok) (hlimit : 1 ≤ limit) (hbudget : 1 ≤ byteBudget)
    (hend : EmptyEnd p lower upper) :
    ¬ PagesExactly (p.forwardPage lower upper limit byteBudget) (p.visible lower upper) := by
  obtain ⟨rfl, rfl, hs, hne⟩ := hend
  rintro ⟨fuel, hread⟩
  have hvalid : p.validateScan p.ownershipEpoch none (some []) limit byteBudget = .ok () :=
    validateScan_ok h hlimit hbudget rfl rfl rfl
  have hvisible : p.visible none (some []) = [] := by
    rw [h.visible_eq]
    exact filter_eq_nil_iff.mpr fun x _ => by simp [endsAt]
  have hfound : (p.live.filter fun e => found p none true (some []) e.key) = p.live :=
    filter_eq_self.mpr fun x _ => by simp [found, startsAt, hs]
  have hpage : p.forwardPage none (some []) limit byteBudget none =
      .ok (page ScanEntry.size limit byteBudget p.live) := by
    rw [forwardPage, scanForward, h.scanForwardBound_eq hvalid,
      hfound]
  have hne' : (page ScanEntry.size limit byteBudget p.live).1 ≠ [] := page_ne_nil hne
  have := hread (fuel + 1) (Nat.le_succ _)
  rw [readPages, hpage, hvisible] at this
  cases hcase : page ScanEntry.size limit byteBudget p.live with
  | mk _ truncated =>
    rw [hcase] at this hne'
    cases truncated with
    | false => simp at this hne'; exact hne' this
    | true =>
      obtain ⟨r, -, hr⟩ := map_eq_some_iff.mp this
      cases r with
      | error => cases hr
      | ok =>
        have := Except.ok.inj hr
        exact hne' (append_eq_nil_iff.mp this).1

end Pages

/-- For a request that passes the checks, reading page by page yields the live keys of the
interval, each once and in order, in both directions, unless the end is the empty key or the
first page holds the empty key alone. -/
theorem partition_scans_page_exactly (p : PartitionReader) (lower upper : Option Key)
    (limit byteBudget : ℕ) (h : p.Ok) (hlimit : 1 ≤ limit) (hbudget : 1 ≤ byteBudget)
    (hlower : lower.all (fun key => decide (key.length ≤ p.maxKeyBytes)) = true)
    (hupper : upper.all (fun key => decide (key.length ≤ p.maxKeyBytes)) = true) :
    ScansExactly p lower upper limit byteBudget ↔
      ¬ EmptyEnd p lower upper ∧ ¬ LonelyEmptyKey p lower upper limit byteBudget := by
  unfold ScansExactly
  split
  next hrev =>
    have herror := validateScan_reversed h hlimit hbudget hlower hupper hrev
    refine ⟨fun _ => ⟨?_, ?_⟩, fun _ => ⟨?_, ?_⟩⟩
    · rintro ⟨rfl, -⟩
      cases hrev
    · rintro ⟨a, b, rest, hvis, -⟩
      have hmem : a ∈ p.visible lower upper := by simp [hvis]
      obtain ⟨-, hstart, hend⟩ := visible_mem h hmem
      cases lower with
      | none => cases hrev
      | some l =>
        cases upper with
        | none => cases hrev
        | some u =>
          have hle : u ≤ l := by simpa [reversed] using hrev
          have hl : l ≤ a.key := by simpa [startsAt] using hstart
          have hu : a.key < u := by simpa [endsAt] using hend
          exact absurd (hle.trans hl) hu.not_ge
    · simp [forwardPage, scanForward,
        scanForwardBound, herror, bind, Except.bind]
    · simp [reversePage, scanReverse, herror, bind,
        Except.bind]
  next hrev =>
    rw [Bool.not_eq_true] at hrev
    constructor
    · rintro ⟨hexact, -⟩
      exact ⟨fun hend => not_exact_of_emptyEnd h hlimit hbudget hend hexact,
        fun hlone => not_exact_of_lonely h hlimit hbudget hlower hupper hrev hlone hexact⟩
    · rintro ⟨hend, hlone⟩
      exact ⟨forward_pages h hlimit hbudget hlower hupper hrev hend hlone,
        reverse_pages h hlimit hbudget hlower hupper hrev⟩

/-- A partition of all keys that holds the empty key and two more. -/
def emptyKeyPartition : PartitionReader where
  ownershipEpoch := 1
  lifecycle := .serving
  maxKeyBytes := 8
  range := ⟨none, none⟩
  tree :=
    { memtables := [[⟨[], 1, some [1]⟩, ⟨[97], 2, some [2]⟩, ⟨[98], 3, some [3]⟩]]
      root := none
      range := ⟨none, none⟩ }

lemma emptyKeyPartition_ok : emptyKeyPartition.Ok where
  tree :=
    { memtables := by
        intro m hm
        rw [mem_singleton.mp hm]
        exact pairwise_cons.mpr ⟨by decide, pairwise_pair.mpr (by decide)⟩
      root := nofun }
  inside := by decide
  readable := rfl

/-- With one entry a page the reader does not get behind the empty key, and an interval without
any key is answered with keys. -/
theorem empty_key_read_again : emptyKeyPartition.Ok ∧
    ¬ ScansExactly emptyKeyPartition none none 1 1 ∧
    ¬ ScansExactly emptyKeyPartition none (some []) 1 1 := by
  have hok := emptyKeyPartition_ok
  refine ⟨hok, fun hexact => ?_, fun hexact => ?_⟩
  · refine not_exact_of_lonely hok le_rfl le_rfl rfl rfl rfl ?_ hexact.1
    exact ⟨⟨[], 1, [1]⟩, ⟨[97], 2, [2]⟩, [⟨[98], 3, [3]⟩], by decide, rfl, .inl rfl⟩
  · exact not_exact_of_emptyEnd hok le_rfl le_rfl ⟨rfl, rfl, rfl, by decide⟩ hexact.1

theorem partition_scans_page_exactly_behind_empty_key :
    ScansExactly emptyKeyPartition (some [97]) none 1 1 ∧
      emptyKeyPartition.visible (some [97]) none = [⟨[97], 2, [2]⟩, ⟨[98], 3, [3]⟩] := by
  have hvis : emptyKeyPartition.visible (some [97]) none =
      [⟨[97], 2, [2]⟩, ⟨[98], 3, [3]⟩] := by decide
  refine ⟨(partition_scans_page_exactly emptyKeyPartition (some [97]) none 1 1
    emptyKeyPartition_ok le_rfl le_rfl rfl rfl).mpr ⟨?_, ?_⟩, hvis⟩
  · rintro ⟨hlower, -⟩
    cases hlower
  · rintro ⟨a, b, rest, h, ha, -⟩
    cases h
    cases ha

end CrowDB.ChunkKv
