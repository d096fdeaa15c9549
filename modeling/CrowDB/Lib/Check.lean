import Mathlib.Logic.Basic

/-!
# Checked computations

A validation is a sequence of checks in `Except`. `ensure` is a check without a
result and `orFail` turns a missing value into an error. The lemmas say when a
sequence of checks passes, so that a proof about an accepted request starts from the
conditions and never unfolds the monad.
-/
namespace CrowDB.Lib
universe u v
variable {ε : Type u} {α β : Type v}

def ensure (p : Prop) [Decidable p] (e : ε) : Except ε Unit :=
  if p then .ok () else .error e

def orFail (o : Option α) (e : ε) : Except ε α :=
  match o with
  | some a => .ok a
  | none => .error e

lemma bind_eq_ok {x : Except ε α} {f : α → Except ε β} {b : β} :
    x >>= f = .ok b ↔ ∃ a, x = .ok a ∧ f a = .ok b := by
  cases x with
  | error => simp [bind, Except.bind]
  | ok => simp [bind, Except.bind]

@[simp] lemma pure_eq_ok {a b : α} : (pure a : Except ε α) = .ok b ↔ a = b := by
  simp [pure, Except.pure]

@[simp] lemma ensure_eq_ok {p : Prop} {_ : Decidable p} {e : ε} {u : Unit} :
    ensure p e = .ok u ↔ p := by
  unfold ensure
  split <;> simp_all

@[simp] lemma orFail_eq_ok {o : Option α} {e : ε} {a : α} : orFail o e = .ok a ↔ o = some a := by
  unfold orFail
  split <;> simp

lemma map_eq_error {x : Except ε α} {f : α → β} {e : ε} (h : x.map f = .error e) :
    x = .error e := by
  cases x with
  | error => exact congrArg _ (Except.error.inj h)
  | ok => cases h

@[simp] lemma toOption_eq_some {x : Except ε α} {a : α} : x.toOption = some a ↔ x = .ok a := by
  cases x <;> simp [Except.toOption]

end CrowDB.Lib
