import Mathlib.Logic.Relation

/-!
# Runs of a transition system

A transition system is a step function into relations, `step : α → σ → σ → Prop`,
where `α` is the type of the actions.  `Run` is the reflexive and transitive
closure of the steps whose action meets a guard `ok`.  An unguarded system takes
`fun _ _ => True`.

`Run.invariant` is the only induction over runs that is needed: what holds
initially and is kept by every guarded step holds in every state reached.
-/

namespace TransitionSystem

variable {σ α : Type*} {step : α → σ → σ → Prop} {ok : α → σ → Prop} {P : σ → Prop}

/-- One step whose action meets the guard in the state before it. -/
def GuardedStep (step : α → σ → σ → Prop) (ok : α → σ → Prop) (s t : σ) : Prop :=
  ∃ a, ok a s ∧ step a s t

/-- A finite run of guarded steps. -/
def Run (step : α → σ → σ → Prop) (ok : α → σ → Prop) : σ → σ → Prop :=
  Relation.ReflTransGen (GuardedStep step ok)

theorem Run.refl (s : σ) : Run step ok s s := Relation.ReflTransGen.refl

theorem Run.tail {s t u : σ} {a : α} (h : Run step ok s t) (ha : ok a t) (hs : step a t u) :
    Run step ok s u :=
  Relation.ReflTransGen.tail h ⟨a, ha, hs⟩

/-- A run that meets a guard meets every weaker one. -/
theorem Run.mono {ok' : α → σ → Prop} {s t : σ} (h : Run step ok s t)
    (hok : ∀ a u, ok a u → ok' a u) : Run step ok' s t := by
  induction h with
  | refl => exact Run.refl s
  | tail _ hstep ih =>
    obtain ⟨a, ha, hs⟩ := hstep
    exact ih.tail (hok a _ ha) hs

/-- What holds in the first state and is kept by every guarded step holds in
every state the run reaches. -/
theorem Run.invariant {s t : σ} (h : Run step ok s t) (init : P s)
    (keep : ∀ a u v, ok a u → step a u v → P u → P v) : P t := by
  induction h with
  | refl => exact init
  | tail _ hstep ih =>
    obtain ⟨a, ha, hs⟩ := hstep
    exact keep a _ _ ha hs ih

/-- A run with given actions. -/
def Along (step : α → σ → σ → Prop) (ok : α → σ → Prop) : List α → σ → σ → Prop
  | [], s, t => s = t
  | a :: rest, s, t => ok a s ∧ ∃ u, step a s u ∧ Along step ok rest u t

theorem Along.run {a : List α} {s t : σ} (h : Along step ok a s t) : Run step ok s t := by
  induction a generalizing s with
  | nil => exact h ▸ Run.refl s
  | cons a rest ih =>
    obtain ⟨ha, u, hs, hrest⟩ := h
    exact Relation.ReflTransGen.head ⟨a, ha, hs⟩ (ih hrest)

end TransitionSystem
