import CrowDB.Paxos.Roles
import CrowDB.Lib.SortedMerge

/-!
# Pages of the tree

A leaf lists the cells of its delta chain by ascending key, as the leaf cursor yields them. An
inner page routes a key to the child behind the last separator that is not above it. A page is
resident or unloaded; a walk that may not load stops at the first unloaded page.
-/
namespace CrowDB.BTree
open Lib
open Paxos (Bytes)

abbrev Key := Bytes

instance : LinearOrder Key where
  le a b := a ≤ b
  lt a b := a < b
  le_refl := List.le_refl
  le_trans _ _ _ := List.le_trans
  le_antisymm _ _ := List.le_antisymm
  le_total := List.le_total
  lt_iff_le_not_ge a b := by
    constructor
    · intro h
      exact ⟨List.le_of_lt h, fun hle => hle h⟩
    · intro h
      exact List.not_le.mp h.2
  toDecidableLE := inferInstance
  toDecidableEq := inferInstance
  toDecidableLT := inferInstance
  compare a b := compareOfLessAndEq a b
  compare_eq_compareOfLessAndEq _ _ := rfl

/-- A cell without a value is a tombstone. -/
structure Cell where
  slot : ℕ
  value : Option Bytes
  deriving DecidableEq

structure Entry where
  key : Key
  cell : Cell
  deriving DecidableEq

def Entry.slot (e : Entry) : ℕ := e.cell.slot

/-- A missing endpoint is unbounded; an empty key is an ordinary one. -/
structure KeyRange where
  start : Option Key
  stop : Option Key
  deriving DecidableEq

namespace KeyRange

section
variable (r : KeyRange) (key : Key)

def before : Bool := r.start.any fun start => decide (key < start)

def atOrAfterEnd : Bool := r.stop.any fun stop => decide (stop ≤ key)

def contains : Bool := !r.before key && !r.atOrAfterEnd key

end

end KeyRange

mutual

inductive Page
  | leaf (id : ℕ) (entries : List Entry)
  | inner (id : ℕ) (children : Children)

/-- The children of an inner page with the separators between them. -/
inductive Children
  | last (child : Page)
  | cons (child : Page) (sep : Key) (rest : Children)

end

structure Leaf where
  id : ℕ
  entries : List Entry

/-- The upper bound of a search for a predecessor, with whether it is included. -/
abbrev Below := Option (Key × Bool)

def Below.admits (b : Below) (key : Key) : Bool :=
  b.all fun bound => if bound.2 then decide (key ≤ bound.1) else decide (key < bound.1)

inductive Search
  | found (e : Entry)
  | absent
  | blocked (page : ℕ)
  deriving DecidableEq

mutual

def Page.leaves : Page → List Leaf
  | .leaf id entries => [⟨id, entries⟩]
  | .inner _ children => children.leaves

def Children.leaves : Children → List Leaf
  | .last child => child.leaves
  | .cons child _ rest => child.leaves ++ rest.leaves

end

mutual

/-- The leaf that the descent for `key` ends at, and the leaves to the right of it. -/
def Page.leavesFrom (key : Key) : Page → List Leaf
  | .leaf id entries => [⟨id, entries⟩]
  | .inner _ children => children.leavesFrom key

def Children.leavesFrom (key : Key) : Children → List Leaf
  | .last child => child.leavesFrom key
  | .cons child sep rest =>
    if key < sep then child.leavesFrom key ++ rest.leaves else rest.leavesFrom key

end

mutual

/-- The first unloaded page on the descent for `key`. -/
def Page.descent (loaded : ℕ → Bool) (key : Key) : Page → Option ℕ
  | .leaf id _ => if loaded id then none else some id
  | .inner id children => if loaded id then children.descent loaded key else some id

def Children.descent (loaded : ℕ → Bool) (key : Key) : Children → Option ℕ
  | .last child => child.descent loaded key
  | .cons child sep rest =>
    if key < sep then child.descent loaded key else rest.descent loaded key

end

mutual

/-- The last entry below the bound. The walk goes down towards the bound, and from an inner page
back to the children on the left as long as it has found nothing. -/
def Page.predecessor (loaded : ℕ → Bool) (bound : Below) : Page → Search
  | .leaf id entries =>
    if loaded id then
      match (entries.filter fun e => bound.admits e.key).getLast? with
      | some e => .found e
      | none => .absent
    else .blocked id
  | .inner id children => if loaded id then children.predecessor loaded bound else .blocked id

def Children.predecessor (loaded : ℕ → Bool) (bound : Below) : Children → Search
  | .last child => child.predecessor loaded bound
  | .cons child sep rest =>
    if bound.any (fun b => decide (b.1 < sep)) then child.predecessor loaded bound
    else match rest.predecessor loaded bound with
      | .absent => child.predecessor loaded none
      | r => r

end

/-! ## What the pages hold -/

mutual

def Page.entries : Page → List Entry
  | .leaf _ entries => entries
  | .inner _ children => children.entries

def Children.entries : Children → List Entry
  | .last child => child.entries
  | .cons child _ rest => child.entries ++ rest.entries

end

def InRange (lo hi : Option Key) (key : Key) : Prop :=
  (∀ l, lo = some l → l ≤ key) ∧ ∀ h, hi = some h → key < h

mutual

/-- A page that is responsible for the keys between two bounds. No key is below the empty one, so
it separates nothing. -/
def Page.Within (lo hi : Option Key) : Page → Prop
  | .leaf _ entries => Ascending Entry.key entries ∧ ∀ e ∈ entries, InRange lo hi e.key
  | .inner _ children => children.Within lo hi

def Children.Within (lo hi : Option Key) : Children → Prop
  | .last child => child.Within lo hi
  | .cons child sep rest =>
    (InRange lo hi sep ∧ sep ≠ []) ∧ child.Within lo (some sep) ∧ rest.Within (some sep) hi

end

lemma InRange.widen {lo hi : Option Key} {sep key : Key} (hsep : InRange lo hi sep) :
    (InRange lo (some sep) key → InRange lo hi key) ∧
      (InRange (some sep) hi key → InRange lo hi key) := by
  constructor
  · intro h
    exact ⟨h.1, fun b hb => (h.2 sep rfl).trans (hsep.2 b hb)⟩
  · intro h
    exact ⟨fun b hb => (hsep.1 b hb).trans (h.1 sep rfl), h.2⟩

mutual

theorem Page.Within.inRange {lo hi : Option Key} :
    ∀ {p : Page}, p.Within lo hi → ∀ e ∈ p.entries, InRange lo hi e.key
  | .leaf _ _, h => h.2
  | .inner _ _, h => Children.Within.inRange h

theorem Children.Within.inRange {lo hi : Option Key} :
    ∀ {c : Children}, c.Within lo hi → ∀ e ∈ c.entries, InRange lo hi e.key
  | .last child, h => Page.Within.inRange h
  | .cons child sep rest, h => by
    intro e he
    rcases List.mem_append.mp he with he | he
    · exact h.1.1.widen.1 (Page.Within.inRange h.2.1 e he)
    · exact h.1.1.widen.2 (Children.Within.inRange h.2.2 e he)

end

mutual

theorem Page.Within.ascending {lo hi : Option Key} :
    ∀ {p : Page}, p.Within lo hi → Ascending Entry.key p.entries
  | .leaf _ _, h => h.1
  | .inner _ _, h => Children.Within.ascending h

theorem Children.Within.ascending {lo hi : Option Key} :
    ∀ {c : Children}, c.Within lo hi → Ascending Entry.key c.entries
  | .last child, h => Page.Within.ascending h
  | .cons child sep rest, h => by
    refine List.pairwise_append.mpr
      ⟨Page.Within.ascending h.2.1, Children.Within.ascending h.2.2, fun a ha b hb => ?_⟩
    have hasep := (Page.Within.inRange h.2.1 a ha).2 sep rfl
    have hbsep := (Children.Within.inRange h.2.2 b hb).1 sep rfl
    exact hasep.trans_le hbsep

end

/-! ## Walks -/

/-- What a search finds when it is not blocked. -/
def Search.of : Option Entry → Search
  | some e => .found e
  | none => .absent

mutual

/-- A search that meets no unloaded page finds the last entry that the bound admits. -/
theorem Page.predecessor_eq (loaded : ℕ → Bool) {lo hi : Option Key} :
    ∀ (bound : Below) {p : Page}, p.Within lo hi →
      p.predecessor loaded bound = .of (p.entries.filter fun e => bound.admits e.key).getLast? ∨
      ∃ id, loaded id = false ∧ p.predecessor loaded bound = .blocked id
  | bound, .leaf id entries, _ => by
    simp only [Page.predecessor, Page.entries]
    split
    · refine .inl ?_
      cases (entries.filter fun e => bound.admits e.key).getLast? <;> rfl
    next hid => exact .inr ⟨id, by simpa using hid, rfl⟩
  | bound, .inner id children, h => by
    simp only [Page.predecessor]
    split
    · exact Children.predecessor_eq loaded bound h
    next hid => exact .inr ⟨id, by simpa using hid, rfl⟩

theorem Children.predecessor_eq (loaded : ℕ → Bool) {lo hi : Option Key} :
    ∀ (bound : Below) {c : Children}, c.Within lo hi →
      c.predecessor loaded bound = .of (c.entries.filter fun e => bound.admits e.key).getLast? ∨
      ∃ id, loaded id = false ∧ c.predecessor loaded bound = .blocked id
  | bound, .last child, h => Page.predecessor_eq loaded bound h
  | bound, .cons child sep rest, h => by
    have hchild := h.2.1.inRange
    have hrest := h.2.2.inRange
    simp only [Children.predecessor, Children.entries, List.filter_append]
    split
    next hleft =>
      -- the bound is below the separator: nothing on the right is admitted
      have hnone : (rest.entries.filter fun e => bound.admits e.key) = [] := by
        refine List.filter_eq_nil_iff.mpr fun e he hadm => ?_
        have hsep := (hrest e he).1 sep rfl
        obtain ⟨b, rfl⟩ : ∃ b, bound = some b := by
          cases bound with
          | none => cases hleft
          | some b => exact ⟨b, rfl⟩
        have hlt : b.1 < sep := by simpa using hleft
        have hb1 : b.1 < e.key := hlt.trans_le hsep
        simp only [Below.admits, Option.all_some] at hadm
        split at hadm
        · exact absurd (of_decide_eq_true hadm) hb1.not_ge
        · exact absurd (of_decide_eq_true hadm) hb1.asymm
      rw [hnone, List.append_nil]
      exact Page.predecessor_eq loaded bound h.2.1
    next hright =>
      -- everything left of the separator is admitted
      have hall : ∀ e ∈ child.entries, bound.admits e.key = true := by
        intro e he
        have hlt := (hchild e he).2 sep rfl
        cases bound with
        | none => rfl
        | some b =>
          have hsep : sep ≤ b.1 := by simpa using hright
          have := hlt.trans_le hsep
          simp only [Below.admits, Option.all_some]
          split
          · exact decide_eq_true this.le
          · exact decide_eq_true this
      rcases Children.predecessor_eq loaded bound h.2.2 with hr | ⟨id, hid, hr⟩
      · rw [hr]
        cases hlast : (rest.entries.filter fun e => bound.admits e.key).getLast? with
        | some e =>
          refine .inl ?_
          rw [List.getLast?_append, hlast]
          rfl
        | none =>
          rw [List.getLast?_eq_none_iff.mp hlast, List.append_nil,
            List.filter_eq_self.mpr hall]
          have hself : (child.entries.filter fun e => Below.admits none e.key) = child.entries :=
            List.filter_eq_self.mpr fun _ _ => rfl
          have hpage := Page.predecessor_eq loaded none h.2.1
          rwa [hself] at hpage
      · rw [hr]
        exact .inr ⟨id, hid, rfl⟩

end

mutual

theorem Page.flatMap_leaves : ∀ p : Page, p.leaves.flatMap Leaf.entries = p.entries
  | .leaf _ _ => by simp [Page.leaves, Page.entries]
  | .inner _ children => Children.flatMap_leaves children

theorem Children.flatMap_leaves : ∀ c : Children, c.leaves.flatMap Leaf.entries = c.entries
  | .last child => Page.flatMap_leaves child
  | .cons child _ rest => by
    simp [Children.leaves, Children.entries, Page.flatMap_leaves child,
      Children.flatMap_leaves rest]

end

mutual

/-- A descent leaves out only what is before the key. -/
theorem Page.leavesFrom_eq (key : Key) {lo hi : Option Key} : ∀ {p : Page}, p.Within lo hi →
    ∃ front, p.entries = front ++ (p.leavesFrom key).flatMap Leaf.entries ∧
      ∀ e ∈ front, e.key < key
  | .leaf _ _, _ => ⟨[], by simp [Page.leavesFrom, Page.entries]⟩
  | .inner _ children, h => Children.leavesFrom_eq key h

theorem Children.leavesFrom_eq (key : Key) {lo hi : Option Key} :
    ∀ {c : Children}, c.Within lo hi →
      ∃ front, c.entries = front ++ (c.leavesFrom key).flatMap Leaf.entries ∧
        ∀ e ∈ front, e.key < key
  | .last child, h => Page.leavesFrom_eq key h
  | .cons child sep rest, h => by
    simp only [Children.leavesFrom, Children.entries]
    split
    · obtain ⟨front, heq, hfront⟩ := Page.leavesFrom_eq key h.2.1
      refine ⟨front, ?_, hfront⟩
      rw [List.flatMap_append, Children.flatMap_leaves, ← List.append_assoc, ← heq]
    next hsep =>
      obtain ⟨front, heq, hfront⟩ := Children.leavesFrom_eq key h.2.2
      refine ⟨child.entries ++ front, by rw [List.append_assoc, ← heq], fun e he => ?_⟩
      rcases List.mem_append.mp he with he | he
      · exact ((h.2.1.inRange e he).2 sep rfl).trans_le (not_lt.mp hsep)
      · exact hfront e he

end

mutual

theorem Page.descent_loaded (key : Key) : ∀ p : Page, p.descent (fun _ => true) key = none
  | .leaf _ _ => rfl
  | .inner _ children => Children.descent_loaded key children

theorem Children.descent_loaded (key : Key) :
    ∀ c : Children, c.descent (fun _ => true) key = none
  | .last child => Page.descent_loaded key child
  | .cons child sep rest => by
    simp only [Children.descent]
    split
    · exact Page.descent_loaded key child
    · exact Children.descent_loaded key rest

end

end CrowDB.BTree
