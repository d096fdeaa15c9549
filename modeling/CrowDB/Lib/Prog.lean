import Mathlib.Logic.Basic

/-!
# Programs of atomic operations

A program is a tree of operations on a shared state with one continuation for each
answer. Left alone it runs to its result; among others it takes one operation at a
time. `Follows` is a program logic given by a rule for each operation: what a program
relies on and what it has to keep is the business of the rule.
-/
namespace CrowDB.Lib

inductive Prog (Op : Type) (Ans : Op → Type) (α : Type)
  | ret (a : α)
  | call (o : Op) (k : Ans o → Prog Op Ans α)

namespace Prog
variable {Op : Type} {Ans : Op → Type} {α β σ γ : Type}

def bind : Prog Op Ans α → (α → Prog Op Ans β) → Prog Op Ans β
  | ret a, f => f a
  | call o k, f => call o fun r => (k r).bind f

instance : Monad (Prog Op Ans) := { pure := ret, bind := bind }

def perform (o : Op) : Prog Op Ans (Ans o) := call o ret

/-- The run of a program that nobody disturbs. -/
def solo (exec : (o : Op) → σ → Ans o × σ) : Prog Op Ans α → σ → α × σ
  | ret a, s => (a, s)
  | call o k, s => (k (exec o s).1).solo exec (exec o s).2

def result? : Prog Op Ans α → Option α
  | ret a => some a
  | call .. => none

section Solo
variable (exec : (o : Op) → σ → Ans o × σ) (s : σ)

@[simp] lemma solo_pure (a : α) : (pure a : Prog Op Ans α).solo exec s = (a, s) := rfl

@[simp] lemma solo_perform (o : Op) : (perform o : Prog Op Ans _).solo exec s = exec o s := rfl

@[simp] lemma solo_bind (p : Prog Op Ans α) (f : α → Prog Op Ans β) :
    (p >>= f).solo exec s = (f (p.solo exec s).1).solo exec (p.solo exec s).2 := by
  induction p generalizing s with
  | ret a => rfl
  | call o k ih => exact ih (exec o s).1 (exec o s).2

end Solo

section Logic
variable (rule : (o : Op) → γ → (Ans o → γ → Prop) → Prop)

/-- The program keeps to the rules from `g` on, and its result meets `Q`. -/
def Follows (Q : α → γ → Prop) : Prog Op Ans α → γ → Prop
  | ret a, g => Q a g
  | call o k, g => rule o g fun r g' => (k r).Follows Q g'

variable {rule} {Q : β → γ → Prop} {R : α → γ → Prop} {g : γ}

lemma follows_perform_bind {o : Op} {f : Ans o → Prog Op Ans β} :
    (perform o >>= f).Follows rule Q g ↔ rule o g fun r g' => (f r).Follows rule Q g' := Iff.rfl

lemma follows_bind (hrule : ∀ o g P P', (∀ r g', P r g' → P' r g') → rule o g P → rule o g P')
    {p : Prog Op Ans α} {f : α → Prog Op Ans β} (hp : p.Follows rule R g)
    (hf : ∀ a g', R a g' → (f a).Follows rule Q g') : (p >>= f).Follows rule Q g := by
  induction p generalizing g with
  | ret a => exact hf a g hp
  | call o k ih => exact hrule o g _ _ (fun r g' h => ih r h) hp

end Logic

end Prog
end CrowDB.Lib
