import CrowDB.BTree.Pages

/-!
# Scans of the tree

A scan merges the memtables with the chain of leaves, from the leaf that the descent ends at to
the right. A reverse scan looks for one predecessor after the other. In both an empty slice
stands for a missing bound, unless the start of a forward scan is marked as a bound.
-/
namespace CrowDB.BTree
open Lib
open Paxos (Bytes)

/-- What a reader sees: the live memtables, the pages and the keys the tree is opened for. -/
structure Tree where
  memtables : List (List Entry)
  root : Option Page
  range : KeyRange

structure ScanArgs where
  keyPrefix : Bytes := []
  startAfter : Key := []
  endKey : Key := []
  limit : ℕ
  byteBudget : ℕ
  keysOnly : Bool := false
  hasStartBound : Bool := false
  startInclusive : Bool := false

structure ScanEntry where
  key : Key
  slot : ℕ
  value : Bytes
  deriving DecidableEq

def ScanEntry.size (e : ScanEntry) : ℕ := e.key.length + e.value.length

structure ScanOut where
  entries : List ScanEntry := []
  bytes : ℕ := 0
  truncated : Bool := false
  deriving DecidableEq

def ScanOut.push (out : ScanOut) (e : ScanEntry) : ScanOut :=
  { out with entries := out.entries ++ [e], bytes := out.bytes + e.size }

namespace ScanArgs

/-- `scan` takes a start key that is not empty for a bound in any case. -/
def bounded (a : ScanArgs) : Bool := a.hasStartBound || !a.startAfter.isEmpty

def started (a : ScanArgs) (key : Key) : Bool :=
  !a.bounded || if a.startInclusive then decide (a.startAfter ≤ key)
  else decide (a.startAfter < key)

def descendKey (a : ScanArgs) : Key := if a.startAfter.isEmpty then a.keyPrefix else a.startAfter

def shown (a : ScanArgs) (e : Entry) (value : Bytes) : ScanEntry :=
  ⟨e.key, e.slot, if a.keysOnly then [] else value⟩

end ScanArgs

/-! ## Forward -/

section
variable (range : KeyRange) (a : ScanArgs) (out : ScanOut) (e : Entry)

/-- `consider`: take the entry, skip it, or stop. -/
def consider : Bool × ScanOut :=
  if range.before e.key then (true, out)
  else if range.atOrAfterEnd e.key then (false, out)
  else if !a.started e.key then (true, out)
  else if !a.keyPrefix.isPrefixOf e.key then (true, out)
  else match e.cell.value with
    | none => (true, out)
    | some value =>
      if a.limit ≠ 0 ∧ a.limit ≤ out.entries.length then (false, { out with truncated := true })
      else if a.byteBudget ≠ 0 ∧ 0 < out.entries.length ∧
          a.byteBudget < out.bytes + (a.shown e value).size then
        (false, { out with truncated := true })
      else (true, out.push (a.shown e value))

/-- The loop body behind the merge: the early stops, then `consider`. -/
def scanStep : Bool × ScanOut :=
  if a.keyPrefix ≠ [] ∧ !a.keyPrefix.isPrefixOf e.key ∧ a.keyPrefix < e.key then (false, out)
  else if a.endKey ≠ [] ∧ a.endKey ≤ e.key then (false, out)
  else consider range a out e

end

/-- Move to the next leaf that has entries left. -/
def refill (loaded : ℕ → Bool) : List Entry → List Leaf → Except ℕ (List Entry × List Leaf)
  | e :: es, leaves => .ok (e :: es, leaves)
  | [], [] => .ok ([], [])
  | [], leaf :: leaves => if loaded leaf.id then refill loaded leaf.entries leaves
      else .error leaf.id

/-- The merge loop. It ends with the page it is blocked at, or with its output. -/
def scanLoop (loaded : ℕ → Bool) (step : ScanOut → Entry → Bool × ScanOut) :
    ℕ → List (List Entry) → List Entry → List Leaf → ScanOut → Except ℕ ScanOut
  | 0, _, _, _, out => .ok out
  | n + 1, l0, l1, leaves, out =>
    match refill loaded l1 leaves with
    | .error page => .error page
    | .ok (l1, leaves) =>
      match pick Entry.key Entry.slot ahead ((l0 ++ [l1]).filterMap List.head?) with
      | none => .ok out
      | some e =>
        if (step out e).1 then
          scanLoop loaded step n (l0.map (advance Entry.key e.key)) (advance Entry.key e.key l1)
            leaves (step out e).2
        else .ok (step out e).2

namespace Tree

def entries (t : Tree) : List Entry :=
  match t.root with
  | none => []
  | some root => root.entries

/-- The cursors of the memtables, at the start key. -/
def cursors (t : Tree) (a : ScanArgs) : List (List Entry) :=
  t.memtables.map fun m => m.filter fun e => a.started e.key

/-- The leaves to walk; the cursor of the first one is moved to the key of the descent. -/
def leafChain (t : Tree) (a : ScanArgs) : List Leaf :=
  match t.root with
  | none => []
  | some root =>
    match root.leavesFrom a.descendKey with
    | [] => []
    | leaf :: leaves =>
      { leaf with
        entries := leaf.entries.filter fun e => a.descendKey.isEmpty ||
          (if a.bounded && !a.startInclusive then decide (a.descendKey < e.key)
            else decide (a.descendKey ≤ e.key)) } :: leaves

/-- `try_scan_no_load`: the walk fails with the first unloaded page. -/
def tryScanNoLoad (loaded : ℕ → Bool) (t : Tree) (a : ScanArgs) : Except ℕ ScanOut :=
  match t.root.bind (Page.descent loaded a.descendKey) with
  | some page => .error page
  | none => scanLoop loaded (scanStep t.range a)
      (totalLength (t.cursors a ++ [(t.leafChain a).flatMap Leaf.entries]) + 1)
      (t.cursors a) [] (t.leafChain a) {}

/-- `scan`: every page is loaded when it is met. -/
def scan (t : Tree) (a : ScanArgs) : ScanOut :=
  match t.tryScanNoLoad (fun _ => true) a with
  | .ok out => out
  | .error _ => {}

/-! ## Reverse -/

/-- The entry that counts for the last key below the bound. -/
def lastBelow (loaded : ℕ → Bool) (t : Tree) (bound : Below) : Except ℕ (Option Entry) :=
  match t.root.elim .absent (Page.predecessor loaded bound) with
  | .blocked page => .error page
  | .absent => .ok (pick Entry.key Entry.slot behind
      (t.memtables.filterMap fun m => (m.filter fun e => bound.admits e.key).getLast?))
  | .found e => .ok (pick Entry.key Entry.slot behind
      ((t.memtables.filterMap fun m => (m.filter fun e => bound.admits e.key).getLast?) ++ [e]))

/-- `seek_reverse_guarded`. -/
def seekReverseGuarded (t : Tree) (beginKey : Key) : ℕ → Below → Option (Entry × Bytes)
  | 0, _ => none
  | n + 1, bound =>
    match t.lastBelow (fun _ => true) bound with
    | .error _ | .ok none => none
    | .ok (some e) =>
      if (beginKey ≠ [] ∧ e.key < beginKey) ∨ t.range.before e.key then none
      else if t.range.atOrAfterEnd e.key then t.seekReverseGuarded beginKey n (some (e.key, false))
      else match e.cell.value with
        | none => t.seekReverseGuarded beginKey n (some (e.key, false))
        | some value => some (e, value)

def scanReverseLoop (t : Tree) (beginKey : Key) (limit byteBudget fuel : ℕ) :
    ℕ → Below → ScanOut → ScanOut
  | 0, _, out => out
  | n + 1, bound, out =>
    match t.seekReverseGuarded beginKey fuel bound with
    | none => out
    | some (e, value) =>
      if (limit ≠ 0 ∧ limit ≤ out.entries.length) ∨ (byteBudget ≠ 0 ∧ out.entries ≠ [] ∧
          byteBudget < out.bytes + (ScanEntry.mk e.key e.slot value).size) then
        { out with truncated := true }
      else t.scanReverseLoop beginKey limit byteBudget fuel n (some (e.key, false))
        (out.push ⟨e.key, e.slot, value⟩)

def streams (t : Tree) : List (List Entry) := t.memtables ++ [t.entries]

def scanReverse (t : Tree) (start : Below) (beginKey : Key) (limit byteBudget : ℕ) : ScanOut :=
  t.scanReverseLoop beginKey limit byteBudget (totalLength t.streams + 1)
    (totalLength t.streams + 1) start {}

end Tree
end CrowDB.BTree
