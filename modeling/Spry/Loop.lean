import Mathlib.Order.Basic

/-!
# Loops with an exit

A loop is a step function on its state: it goes on, it is done with a value, or it leaves the
process. `run` iterates it with fuel. The rules below turn a decreasing measure and a value that
every step preserves into the result of every run with enough fuel, from every state or from the
states with an invariant.
-/

namespace Loop

universe u v w

variable {σ : Type u} {α : Type v}

inductive Step (σ : Type u) (α : Type v) where
  | next (s : σ)
  | done (a : α)
  | exit

inductive Outcome (α : Type v) where
  | outOfFuel
  | exited
  | returned (a : α)

namespace Outcome

def ofOption : Option α → Outcome α
  | none => exited
  | some a => returned a

def bind {β : Type w} : Outcome α → (α → Outcome β) → Outcome β
  | outOfFuel, _ => outOfFuel
  | exited, _ => exited
  | returned a, f => f a

@[simp] theorem ofOption_some (a : α) : ofOption (some a) = returned a := rfl

@[simp] theorem ofOption_none : ofOption (none : Option α) = exited := rfl

@[simp] theorem returned_bind {β : Type w} (a : α) (f : α → Outcome β) :
    (returned a).bind f = f a := rfl

@[simp] theorem exited_bind {β : Type w} (f : α → Outcome β) :
    (exited : Outcome α).bind f = exited := rfl

end Outcome

def run (step : σ → Step σ α) : ℕ → σ → Outcome α
  | 0, _ => .outOfFuel
  | fuel + 1, s =>
    match step s with
    | .next s' => run step fuel s'
    | .done a => .returned a
    | .exit => .exited

/-- What a step has to do for the loop to compute `value` within `bound` steps. -/
def Computes (value : σ → Option α) (bound : σ → ℕ) (s : σ) : Step σ α → Prop
  | .next s' => value s' = value s ∧ bound s' < bound s
  | .done a => value s = some a
  | .exit => value s = none

theorem run_eq {step : σ → Step σ α} {value : σ → Option α} {bound : σ → ℕ}
    (h : ∀ s, Computes value bound s (step s)) {fuel : ℕ} {s : σ} (hfuel : bound s < fuel) :
    run step fuel s = .ofOption (value s) := by
  induction fuel generalizing s with
  | zero => exact absurd hfuel (Nat.not_lt_zero _)
  | succ fuel ih =>
    have hs := h s
    rw [run]
    cases hstep : step s with
    | next s' =>
      rw [hstep] at hs
      obtain ⟨hvalue, hbound⟩ := hs
      rw [← hvalue]
      exact ih (Nat.lt_of_lt_of_le hbound (Nat.le_of_lt_succ hfuel))
    | done a =>
      rw [hstep] at hs
      change value s = some a at hs
      rw [hs]
      rfl
    | exit =>
      rw [hstep] at hs
      change value s = none at hs
      rw [hs]
      rfl

/-- What a step has to do, from a state with the invariant, for the loop to return `value` within
`bound` steps. -/
def Returns (inv : σ → Prop) (value : σ → α) (bound : σ → ℕ) (s : σ) : Step σ α → Prop
  | .next s' => inv s' ∧ value s' = value s ∧ bound s' < bound s
  | .done a => value s = a
  | .exit => False

theorem run_returns {step : σ → Step σ α} {inv : σ → Prop} {value : σ → α} {bound : σ → ℕ}
    (h : ∀ s, inv s → Returns inv value bound s (step s)) {fuel : ℕ} {s : σ} (hs : inv s)
    (hfuel : bound s < fuel) : run step fuel s = .returned (value s) := by
  induction fuel generalizing s with
  | zero => exact absurd hfuel (Nat.not_lt_zero _)
  | succ fuel ih =>
    have hstep := h s hs
    rw [run]
    cases heq : step s with
    | next s' =>
      rw [heq] at hstep
      obtain ⟨hs', hvalue, hbound⟩ := hstep
      rw [← hvalue]
      exact ih hs' (Nat.lt_of_lt_of_le hbound (Nat.le_of_lt_succ hfuel))
    | done a =>
      rw [heq] at hstep
      change value s = a at hstep
      rw [hstep]
    | exit =>
      rw [heq] at hstep
      exact absurd hstep not_false

end Loop
