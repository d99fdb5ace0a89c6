/-!
# Runs of a transition system

A step of a program takes a state and a label to the next state. It may be blocked, or
do something the language gives no meaning to; after that any state may follow.

`Run` is every state that labelled steps lead to from a first one, as long as each step
meets a condition on the state before it and the label. An invariant of the steps is an
invariant of the runs, and a run of a list of labels is checked and computed by `exec`.
-/

namespace Ztsdb.Lib

/-- What comes of a step. -/
inductive Next (σ : Type) where
  | blocked
  | goes (s : σ)
  | wild

variable {σ α : Type}

inductive Run (step : α → σ → Next σ) (C : α → σ → Prop) (s₀ : σ) : σ → Prop
  | start : Run step C s₀ s₀
  | step {a : α} {s s' : σ} : Run step C s₀ s → C a s → step a s = .goes s' → Run step C s₀ s'
  | wild {a : α} {s s' : σ} : Run step C s₀ s → C a s → step a s = .wild → Run step C s₀ s'

/-- Steps in a row, where all of them go and meet the condition. -/
def exec (step : α → σ → Next σ) (C : α → σ → Prop) [∀ a s, Decidable (C a s)] :
    List α → σ → Option σ
  | [], s => some s
  | a :: as, s =>
    if C a s then
      match step a s with
      | .goes s' => exec step C as s'
      | _ => none
    else none

namespace Run

variable {step : α → σ → Next σ} {C : α → σ → Prop} {s₀ s s' : σ}

/-- What holds at first and is kept by every step under its condition holds throughout. -/
theorem invariant {P : σ → Prop} (hr : Run step C s₀ s) (h0 : P s₀)
    (hstep : ∀ a s s', P s → C a s → step a s = .goes s' → P s')
    (hwild : ∀ a s, P s → C a s → step a s ≠ .wild) : P s := by
  induction hr with
  | start => exact h0
  | step _ hc hgo ih => exact hstep _ _ _ ih hc hgo
  | wild _ hc hgo ih => exact absurd hgo (hwild _ _ ih hc)

theorem trans {s₁ : σ} (h : Run step C s₀ s₁) (h' : Run step C s₁ s) : Run step C s₀ s := by
  induction h' with
  | start => exact h
  | step _ hc hgo ih => exact .step ih hc hgo
  | wild _ hc hgo ih => exact .wild ih hc hgo

theorem of_exec [∀ a s, Decidable (C a s)] {as : List α} (h : exec step C as s₀ = some s) :
    Run step C s₀ s := by
  induction as generalizing s₀ with
  | nil =>
      cases h
      exact .start
  | cons a as ih =>
      rw [exec] at h
      split at h
      · next hc =>
          split at h
          · next s' hgo => exact (Run.step .start hc hgo).trans (ih h)
          · cases h
      · cases h

end Run

end Ztsdb.Lib
