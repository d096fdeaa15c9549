import Mathlib.Data.List.Basic
import Mathlib.Logic.Relation

/-!
# A log decided under successive leaderships

What a consensus layer gives to the code above it. An entry is offered at a slot
under a term, and closed once a quorum has taken it. A reign starts in a term of
its own, with a ceiling: an entry of an earlier term can be closed only if it was
offered before the reign began and lies at or below the ceiling. A slot is closed
with one command. The structure carries these facts, and offering, closing and
electing are its operations.
-/
namespace CrowDB.Lib

structure Offer (α : Type*) where
  slot : ℕ
  term : ℕ
  cmd : α
  deriving DecidableEq, Repr

structure Reign (α : Type*) where
  term : ℕ
  leader : ℕ
  ceiling : ℕ
  /-- The entries offered when the reign began. -/
  before : List (Offer α)
  deriving DecidableEq, Repr

/-- What an entry of an earlier term needs under a reign. -/
def Reign.Admits {α : Type*} (R : Reign α) (o : Offer α) : Prop :=
  o.term < R.term → o ∈ R.before ∧ o.slot ≤ R.ceiling

structure TenuredLog (α : Type*) where
  offers : List (Offer α)
  closed : List (Offer α)
  reigns : List (Reign α)
  offered : ∀ o ∈ closed, o ∈ offers
  agree : ∀ o ∈ closed, ∀ p ∈ closed, o.slot = p.slot → o.cmd = p.cmd
  admitted : ∀ o ∈ closed, ∀ R ∈ reigns, R.Admits o
  known : ∀ R ∈ reigns, ∀ o ∈ R.before, o ∈ offers
  single : ∀ R ∈ reigns, ∀ R' ∈ reigns, R.term = R'.term → R = R'

namespace TenuredLog
variable {α : Type*}

def empty : TenuredLog α := ⟨[], [], [], by simp, by simp, by simp, by simp, by simp⟩

def offer (L : TenuredLog α) (o : Offer α) : TenuredLog α where
  offers := o :: L.offers
  closed := L.closed
  reigns := L.reigns
  offered p hp := List.mem_cons_of_mem _ (L.offered p hp)
  agree := L.agree
  admitted := L.admitted
  known R hR p hp := List.mem_cons_of_mem _ (L.known R hR p hp)
  single := L.single

/-- A quorum may take `o`. -/
structure CanClose (L : TenuredLog α) (o : Offer α) : Prop where
  offered : o ∈ L.offers
  agrees : ∀ p ∈ L.closed, p.slot = o.slot → p.cmd = o.cmd
  admitted : ∀ R ∈ L.reigns, R.Admits o

def close (L : TenuredLog α) (o : Offer α) (h : L.CanClose o) : TenuredLog α where
  offers := L.offers
  closed := o :: L.closed
  reigns := L.reigns
  offered p hp := by
    rcases List.mem_cons.mp hp with rfl | hp
    · exact h.offered
    · exact L.offered p hp
  agree p hp q hq hs := by
    rcases List.mem_cons.mp hp with rfl | hp'
    · rcases List.mem_cons.mp hq with rfl | hq'
      · rfl
      · exact (h.agrees q hq' hs.symm).symm
    · rcases List.mem_cons.mp hq with rfl | hq'
      · exact h.agrees p hp' hs
      · exact L.agree p hp' q hq' hs
  admitted p hp := by
    rcases List.mem_cons.mp hp with rfl | hp
    · exact h.admitted
    · exact L.admitted p hp
  known := L.known
  single := L.single

/-- A new reign covers everything an earlier term has closed. -/
structure CanElect (L : TenuredLog α) (term ceiling : ℕ) : Prop where
  fresh : ∀ R ∈ L.reigns, R.term ≠ term
  covers : ∀ o ∈ L.closed, o.term < term → o.slot ≤ ceiling

def elect (L : TenuredLog α) (term leader ceiling : ℕ) (h : L.CanElect term ceiling) :
    TenuredLog α where
  offers := L.offers
  closed := L.closed
  reigns := ⟨term, leader, ceiling, L.offers⟩ :: L.reigns
  offered := L.offered
  agree := L.agree
  admitted o ho R hR := by
    rcases List.mem_cons.mp hR with rfl | hR
    · exact fun hlt => ⟨L.offered o ho, h.covers o ho hlt⟩
    · exact L.admitted o ho R hR
  known R hR := by
    rcases List.mem_cons.mp hR with rfl | hR
    · exact fun _ ho => ho
    · exact L.known R hR
  single R hR R' hR' ht := by
    rcases List.mem_cons.mp hR with rfl | hR₁
    · rcases List.mem_cons.mp hR' with rfl | hR₂
      · rfl
      · exact absurd ht.symm (h.fresh R' hR₂)
    · rcases List.mem_cons.mp hR' with rfl | hR₂
      · exact absurd ht (h.fresh R hR₁)
      · exact L.single R hR₁ R' hR₂ ht

inductive Step (L : TenuredLog α) : TenuredLog α → Prop
  | offer (o : Offer α) : Step L (L.offer o)
  | close (o : Offer α) (h : L.CanClose o) : Step L (L.close o h)
  | elect (term leader ceiling : ℕ) (h : L.CanElect term ceiling) :
      Step L (L.elect term leader ceiling h)

/-- A sequence of operations. -/
def Steps : TenuredLog α → TenuredLog α → Prop := Relation.ReflTransGen Step

end TenuredLog
end CrowDB.Lib
