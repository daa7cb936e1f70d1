/-
# Runs of a transition system

A library for systems given by a step relation with labels.  `Run step ok s t` says that
`t` is reached from `s` by steps each of which meets the condition `ok`, a property of the
state before the step and of its label.
-/
import Mathlib

/-- `t` is reached from `s` by steps that all meet `ok`. -/
inductive Run {S A : Type} (step : S → A → S → Prop) (ok : S → A → Prop) : S → S → Prop
  | refl (s : S) : Run step ok s s
  | tail {s t u : S} {a : A} (run : Run step ok s t) (cond : ok t a) (last : step t a u) :
      Run step ok s u

namespace Run

variable {S A : Type} {step : S → A → S → Prop} {ok : S → A → Prop} {s t : S}

/-- **The invariant rule.**  What holds at the start and is kept by every step that meets
the condition holds in every state reached. -/
theorem invariant {I : S → Prop} (run : Run step ok s t) (start : I s)
    (keep : ∀ t a u, I t → ok t a → step t a u → I u) : I t := by
  induction run with
  | refl => exact start
  | tail _ cond last ih => exact keep _ _ _ ih cond last

/-- One step is a run. -/
theorem single {a : A} (cond : ok s a) (h : step s a t) : Run step ok s t :=
  tail (refl s) cond h

/-- Runs compose. -/
theorem trans {u : S} (h₁ : Run step ok s t) (h₂ : Run step ok t u) : Run step ok s u := by
  induction h₂ with
  | refl => exact h₁
  | tail _ cond last ih => exact tail ih cond last

/-- A run under a condition is a run under every weaker one. -/
theorem mono {ok' : S → A → Prop} (run : Run step ok s t) (h : ∀ t a, ok t a → ok' t a) :
    Run step ok' s t := by
  induction run with
  | refl => exact refl _
  | tail _ cond last ih => exact tail ih (h _ _ cond) last

end Run
