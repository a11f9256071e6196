/-
  Lib/Runs.lean --- runs of labelled steps.

  What every step keeps, a run keeps; and where every step of one machine is a step of
  another that stands for it, a run of the one is a run of the other.
-/
import Mathlib.Tactic.TypeStar

set_option autoImplicit false

universe u v w

/-- A run: one step for each label, in order. -/
inductive Runs {σ : Type u} {α : Type v} (step : α → σ → σ → Prop) : σ → List α → σ → Prop
  | nil (s : σ) : Runs step s [] s
  | cons {s t u : σ} {a : α} {as : List α} (hstep : step a s t) (hrest : Runs step t as u) : Runs step s (a :: as) u

namespace Runs

variable {σ : Type u} {τ : Type w} {α : Type v} {step : α → σ → σ → Prop} {step' : α → τ → τ → Prop} {s t u : σ}
  {as bs : List α}

theorem append (h : Runs step s as t) (h' : Runs step t bs u) : Runs step s (as ++ bs) u := by
  induction h with
  | nil => exact h'
  | cons hstep _ ih => exact .cons hstep (ih h')

theorem concat {a : α} (h : Runs step s as t) (hstep : step a t u) : Runs step s (as ++ [a]) u :=
  h.append (.cons hstep (.nil u))

/-- An invariant of the steps. -/
theorem keeps {I : σ → Prop} (h : Runs step s as t) (hs : I s) (hI : ∀ a s t, I s → step a s t → I t) : I t := by
  induction h with
  | nil => exact hs
  | cons hstep _ ih => exact ih (hI _ _ _ hs hstep)

/-- A simulation of the steps. -/
theorem simulates {R : σ → τ → Prop} {x : τ} (h : Runs step s as t) (hR : R s x)
    (hsim : ∀ a s t x, R s x → step a s t → ∃ y, step' a x y ∧ R t y) : ∃ y, Runs step' x as y ∧ R t y := by
  induction h generalizing x with
  | nil => exact ⟨x, .nil x, hR⟩
  | cons hstep _ ih =>
      obtain ⟨y, hy, hR⟩ := hsim _ _ _ _ hR hstep
      obtain ⟨z, hz, hR⟩ := ih hR
      exact ⟨z, .cons hy hz, hR⟩

end Runs
