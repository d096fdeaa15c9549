import Mathlib.Data.List.Basic

/-!
# Guarded transition systems

A system is a set of initial states and a partial, executable step function.
`Reach G` holds of the states a run can reach when every step of the run meets
the guard `G` in the state before it; the guard `Free` excludes nothing. Safety
results are proved by `Reach.invariant`, and a concrete run is evaluated by
`exec` and turned into a reachable state by `reach_run`.
-/
namespace CrowDB.Lib

structure System (σ α : Type*) where
  init : σ → Prop
  step : σ → α → Option σ

namespace System
variable {σ α : Type*} (S : System σ α)

/-- The guard that every step meets. -/
def Free : σ → α → Prop := fun _ _ => True

inductive Reach (G : σ → α → Prop) : σ → Prop
  | init {s : σ} (h : S.init s) : Reach G s
  | step {s t : σ} (a : α) (hs : Reach G s) (hg : G s a) (h : S.step s a = some t) : Reach G t

variable {S} {G : σ → α → Prop}

/-- What holds initially and is kept by every guarded step holds in every
state that a guarded run reaches. -/
theorem Reach.invariant {I : σ → Prop} (h0 : ∀ s, S.init s → I s)
    (hstep : ∀ s a t, I s → G s a → S.step s a = some t → I t)
    {s : σ} (h : S.Reach G s) : I s := by
  induction h with
  | init h => exact h0 _ h
  | step a _ hg h ih => exact hstep _ a _ ih hg h

/-- A stronger invariant may use one already proved of the same runs. -/
theorem Reach.invariant_of {I J : σ → Prop} (hI : ∀ s, S.Reach G s → I s) (h0 : ∀ s, S.init s → J s)
    (hstep : ∀ s a t, I s → I t → J s → G s a → S.step s a = some t → J t)
    {s : σ} (h : S.Reach G s) : J s := by
  induction h with
  | init h => exact h0 _ h
  | step a hs hg h ih => exact hstep _ a _ (hI _ hs) (hI _ (hs.step a hg h)) ih hg h

/-- Weakening the guard keeps every reachable state. -/
theorem Reach.mono {G' : σ → α → Prop} (hG : ∀ s a, G s a → G' s a)
    {s : σ} (h : S.Reach G s) : S.Reach G' s := by
  induction h with
  | init h => exact .init h
  | step a _ hg h ih => exact ih.step a (hG _ _ hg) h

variable (S)

/-- Execute a list of actions; `none` when one of them is not enabled. -/
def exec (s : σ) : List α → Option σ
  | [] => some s
  | a :: as => (S.step s a).bind fun t => exec t as

/-- Execute a list of actions, checking a decidable guard before each. -/
def execGuarded (g : σ → α → Bool) (s : σ) : List α → Option σ
  | [] => some s
  | a :: as => if g s a then (S.step s a).bind fun t => execGuarded g t as else none

variable {S}

lemma reach_exec {s t : σ} (as : List α) (hs : S.Reach Free s)
    (h : S.exec s as = some t) : S.Reach Free t := by
  induction as generalizing s with
  | nil => simp only [exec, Option.some.injEq] at h; exact h ▸ hs
  | cons a _ ih =>
    obtain ⟨u, hu, h⟩ := Option.bind_eq_some_iff.mp h
    exact ih (hs.step a trivial hu) h

lemma reach_execGuarded {g : σ → α → Bool} {s t : σ} (as : List α)
    (hs : S.Reach (fun s a => g s a = true) s) (h : S.execGuarded g s as = some t) :
    S.Reach (fun s a => g s a = true) t := by
  induction as generalizing s with
  | nil => simp only [execGuarded, Option.some.injEq] at h; exact h ▸ hs
  | cons a _ ih =>
    simp only [execGuarded] at h
    split at h
    · next hga =>
      obtain ⟨u, hu, h⟩ := Option.bind_eq_some_iff.mp h
      exact ih (hs.step a hga hu) h
    · exact absurd h (by simp)

/-- Where a run leads from an initial state; one that cannot be executed stays there. -/
theorem reach_run {s : σ} (as : List α) (hs : S.init s) : S.Reach Free ((S.exec s as).getD s) := by
  cases h : S.exec s as with
  | none => exact .init hs
  | some t => exact reach_exec as (.init hs) h

lemma reach_runGuarded {g : σ → α → Bool} {s : σ} (as : List α) (hs : S.init s) :
    S.Reach (fun s a => g s a = true) ((S.execGuarded g s as).getD s) := by
  cases h : S.execGuarded g s as with
  | none => exact .init hs
  | some t => exact reach_execGuarded as (.init hs) h

end System

section Calls
variable {α : Type*} {p : α → Prop} {l : List α} {a : α} (h : ∀ x ∈ l, p x) (ha : p a)
include h ha

/-- A call is added to a list of calls. -/
theorem forall_mem_concat : ∀ x ∈ l ++ [a], p x :=
  List.forall_mem_append.mpr ⟨h, List.forall_mem_singleton.mpr ha⟩

/-- A call of a list takes a step. -/
theorem forall_mem_set {i : ℕ} : ∀ x ∈ l.set i a, p x := by
  intro x hx
  rcases List.mem_or_eq_of_mem_set hx with hx | rfl
  · exact h x hx
  · exact ha

end Calls
end CrowDB.Lib
