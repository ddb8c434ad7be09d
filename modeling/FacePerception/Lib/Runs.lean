import Mathlib.Data.List.Basic

/-!
# Runs of a step function

A run of `step : σ → α → σ` from `s` is `l.foldl step s`; since every list of
inputs is a run, a statement about all lists is one about all reachable states.

* `inv_foldl`: an invariant of all steps holds after every run.
* `inv_foldl_of_along`: an invariant of the steps that meet a condition holds
  after every run all of whose steps meet it.
* `along_of_inv`: what such an invariant says of a step holds of all steps of the
  run.
* `CanReach.of_step`: what can be reached behind a step can be reached.
-/

namespace Runs

variable {σ α : Type} {step : σ → α → σ}

/-- Every step of the run of `l` from `s` is taken in a state that meets `C`. -/
def Along (step : σ → α → σ) (C : σ → α → Prop) : σ → List α → Prop
  | _, [] => True
  | s, a :: l => C s a ∧ Along step C (step s a) l

instance decidableAlong (C : σ → α → Prop) [∀ s a, Decidable (C s a)] :
    ∀ s l, Decidable (Along step C s l)
  | _, [] => isTrue trivial
  | s, a :: l => @instDecidableAnd _ _ _ (decidableAlong C (step s a) l)

theorem along_append {C : σ → α → Prop} (l₁ l₂ : List α) (s : σ) :
    Along step C s (l₁ ++ l₂) ↔ Along step C s l₁ ∧ Along step C (l₁.foldl step s) l₂ := by
  induction l₁ generalizing s with
  | nil => simp [Along]
  | cons a l ih => simp [Along, ih, and_assoc]

/-- An invariant of all steps. -/
theorem inv_foldl (I : σ → Prop) (hstep : ∀ s a, I s → I (step s a)) (l : List α) {s : σ}
    (hs : I s) : I (l.foldl step s) := by
  induction l generalizing s with
  | nil => exact hs
  | cons a l ih => exact ih (hstep s a hs)

/-- An invariant of the steps that meet `C`. -/
theorem inv_foldl_of_along {C : σ → α → Prop} (I : σ → Prop)
    (hstep : ∀ s a, I s → C s a → I (step s a)) :
    ∀ (l : List α) (s : σ), I s → Along step C s l → I (l.foldl step s) := by
  intro l
  induction l with
  | nil => intro s hs _; exact hs
  | cons a l ih =>
    intro s hs hl
    exact ih (step s a) (hstep s a hs hl.1) hl.2

/-- What an invariant says of each step it meets, all steps of the run meet. -/
theorem along_of_inv {C D : σ → α → Prop} (I : σ → Prop)
    (hstep : ∀ s a, I s → C s a → I (step s a)) (hD : ∀ s a, I s → C s a → D s a) :
    ∀ (l : List α) (s : σ), I s → Along step C s l → Along step D s l := by
  intro l
  induction l with
  | nil => intro s _ _; trivial
  | cons a l ih =>
    intro s hs hl
    exact ⟨hD s a hs hl.1, ih (step s a) (hstep s a hs hl.1) hl.2⟩

/-! ## Reaching a state -/

/-- Some run from `s` ends in a state with `P`. -/
def CanReach (step : σ → α → σ) (P : σ → Prop) (s : σ) : Prop := ∃ l : List α, P (l.foldl step s)

theorem CanReach.of_now {P : σ → Prop} {s : σ} (h : P s) : CanReach step P s := ⟨[], h⟩

theorem CanReach.of_step {P : σ → Prop} {s : σ} (a : α) (h : CanReach step P (step s a)) :
    CanReach step P s := by
  obtain ⟨l, hl⟩ := h
  exact ⟨a :: l, hl⟩

end Runs
