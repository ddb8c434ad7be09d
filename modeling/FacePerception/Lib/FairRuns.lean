import FacePerception.Lib.Runs
import Mathlib.Order.WellFounded

/-!
# Fair runs

Infinite runs of a step function in which every part of a system is moved again and again.
A part that has to wait, or has nothing left to do, leaves the state as it is.

* `stateAt_eq_foldl`: an infinite run up to a move is a finite run.
* `stops`: a run whose steps decrease a measure comes to rest.
* `reaches`: where a part can always move until a goal is met, a fair run meets it.
-/

namespace Runs

variable {σ α ι β : Type} {step : σ → α → σ}

/-- The state after the first `n` moves of an infinite run. -/
def stateAt (step : σ → α → σ) (s : σ) (moves : ℕ → α) : ℕ → σ
  | 0 => s
  | n + 1 => step (stateAt step s moves n) (moves n)

/-- Every part is moved again and again; `who` is the part that a move is about. -/
def Fair (who : α → ι) (moves : ℕ → α) : Prop := ∀ i n, ∃ m, n ≤ m ∧ who (moves m) = i

theorem stateAt_eq_foldl (s : σ) (moves : ℕ → α) (n : ℕ) :
    stateAt step s moves n = ((List.range n).map moves).foldl step s := by
  induction n with
  | zero => rfl
  | succ n ih => rw [stateAt, ih, List.range_succ, List.map_append, List.foldl_append]; rfl

theorem inv_stateAt (I : σ → Prop) (hstep : ∀ s a, I s → I (step s a)) {s : σ} (hs : I s)
    (moves : ℕ → α) (n : ℕ) : I (stateAt step s moves n) := by
  rw [stateAt_eq_foldl]
  exact inv_foldl I hstep _ hs

section Measure

variable [Preorder β] [WellFoundedLT β] (μ : σ → β) (I : σ → Prop)

/-- **A run comes to rest** if the steps that change the state decrease a measure. -/
theorem stops (hstep : ∀ s a, I s → I (step s a))
    (hμ : ∀ s a, I s → step s a ≠ s → μ (step s a) < μ s) {s : σ} (hs : I s) (moves : ℕ → α) :
    ∃ n, ∀ m, n ≤ m → stateAt step s moves m = stateAt step s moves n := by
  obtain ⟨n, hn⟩ : ∃ n, ∀ m, ¬ μ (stateAt step s moves m) < μ (stateAt step s moves n) := by
    obtain ⟨b, ⟨n, rfl⟩, hmin⟩ := WellFounded.has_min (wellFounded_lt (α := β))
      (Set.range fun n => μ (stateAt step s moves n)) ⟨_, 0, rfl⟩
    exact ⟨n, fun m => hmin _ ⟨m, rfl⟩⟩
  refine ⟨n, fun m hm => ?_⟩
  induction m, hm using Nat.le_induction with
  | base => rfl
  | succ m _ ih =>
    by_contra hne
    have hmoved : step (stateAt step s moves m) (moves m) ≠ stateAt step s moves m := by
      rw [ih]
      rw [stateAt, ih] at hne
      exact hne
    have hlt := hμ _ _ (inv_stateAt I hstep hs moves m) hmoved
    rw [ih] at hlt
    refine hn (m + 1) ?_
    rwa [stateAt, ih]

/-- **A fair run meets its goal**: it comes to rest, and it cannot rest before. -/
theorem reaches (Goal : σ → Prop) (who : α → ι) (hstep : ∀ s a, I s → I (step s a))
    (hμ : ∀ s a, I s → step s a ≠ s → μ (step s a) < μ s)
    (hprogress : ∀ s, I s → ¬ Goal s → ∃ i, ∀ a, who a = i → step s a ≠ s) {s : σ} (hs : I s)
    {moves : ℕ → α} (hfair : Fair who moves) :
    ∃ n, ∀ m, n ≤ m → Goal (stateAt step s moves m) := by
  obtain ⟨n, hn⟩ := stops μ I hstep hμ hs moves
  have hgoal : Goal (stateAt step s moves n) := by
    by_contra hnot
    obtain ⟨i, hi⟩ := hprogress _ (inv_stateAt I hstep hs moves n) hnot
    obtain ⟨m, hm, hwho⟩ := hfair i n
    have hrest := hn (m + 1) (hm.trans m.le_succ)
    rw [stateAt, hn m hm] at hrest
    exact hi _ hwho hrest
  refine ⟨n, fun m hm => ?_⟩
  rw [hn m hm]
  exact hgoal

end Measure

end Runs
