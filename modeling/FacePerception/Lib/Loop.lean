import Mathlib.Data.Seq.Computation

/-!
# `while` loops over possibly diverging computations

Mathlib's `Computation α` is a value that may never arrive. `Computation.corec`
is a `while` loop whose body is a function; `Computation.loop` is one whose body
is itself a computation, so that loops nest. A body answers `inl r` to leave the
loop with `r` and `inr s` to go round again from `s`.

* `corec_exit`, `corec_turn`: what the first turn of a loop does to the rest of it.
* `exit_of_mem_corec`: an invariant holds where the loop is left.
* `mem_map_corec_exit`, `mem_map_corec_turn`, `not_mem_map_corec`: the same for what is
  made of the loop's result.
* `corec_map`: two loops whose bodies agree return the same.
* `mem_loop_iff`: a loop returns `r` iff its first turn leaves with `r`, or goes
  round to a state from which the loop returns `r`.
* `not_terminates_corec`, `not_terminates_loop`: a loop that can keep going round inside a
  set of states never returns.
-/

namespace Computation

variable {α β ρ σ : Type}

/-! ## Sequencing -/

theorem mem_bind_iff (c : Computation α) (f : α → Computation β) (b : β) :
    b ∈ c >>= f ↔ ∃ a ∈ c, b ∈ f a :=
  ⟨fun h => exists_of_mem_bind h, fun ⟨_, ha, hb⟩ => mem_bind ha hb⟩

theorem mem_map_iff (f : α → β) (c : Computation α) (b : β) :
    b ∈ f <$> c ↔ ∃ a ∈ c, f a = b :=
  ⟨fun h => exists_of_mem_map h, fun ⟨_, ha, hb⟩ => hb ▸ mem_map f ha⟩

/-! ## Loops whose body is a function -/

theorem corec_exit {f : σ → ρ ⊕ σ} {s : σ} {r : ρ} (h : f s = Sum.inl r) :
    corec f s = pure r := by
  apply destruct_eq_pure
  rw [corec_eq, h, rmap]

theorem corec_turn {f : σ → ρ ⊕ σ} {s s' : σ} (h : f s = Sum.inr s') :
    corec f s = think (corec f s') := by
  apply destruct_eq_think
  rw [corec_eq, h, rmap]

theorem think_val_zero (c : Computation ρ) : (think c).1 0 = none := rfl

/-- A set of states that the body never leaves holds a diverging loop. -/
theorem not_terminates_corec {f : σ → ρ ⊕ σ} (P : σ → Prop)
    (hP : ∀ s, P s → ∃ s', f s = Sum.inr s' ∧ P s') {s : σ} (hs : P s) :
    ¬ (corec f s).Terminates := by
  rw [terminates_def]
  rintro ⟨n, hn⟩
  induction n generalizing s with
  | zero =>
    obtain ⟨s', hf, -⟩ := hP s hs
    rw [corec_turn hf, think_val_zero] at hn
    exact absurd hn (by simp)
  | succ n ih =>
    obtain ⟨s', hf, hs'⟩ := hP s hs
    rw [corec_turn hf] at hn
    exact ih hs' hn

/-- **The rule for an invariant**: what a loop returns, a turn has left it with, from a state
that satisfies what every turn preserves. -/
theorem exit_of_mem_corec {f : σ → ρ ⊕ σ} (P : σ → Prop)
    (hP : ∀ s s', P s → f s = Sum.inr s' → P s') {s : σ} (hs : P s) {r : ρ}
    (h : r ∈ corec f s) : ∃ s', P s' ∧ f s' = Sum.inl r := by
  obtain ⟨n, hn⟩ := h
  replace hn : (corec f s).1 n = some r := hn.symm
  induction n generalizing s with
  | zero =>
    cases hf : f s with
    | inl r' =>
      have hr : r ∈ corec f s := ⟨0, hn.symm⟩
      rw [corec_exit hf, mem_pure_iff] at hr
      exact ⟨s, hs, hr ▸ hf⟩
    | inr s' =>
      rw [corec_turn hf, think_val_zero] at hn
      exact absurd hn (Option.some_ne_none r).symm
  | succ n ih =>
    cases hf : f s with
    | inl r' =>
      have hr : r ∈ corec f s := ⟨n + 1, hn.symm⟩
      rw [corec_exit hf, mem_pure_iff] at hr
      exact ⟨s, hs, hr ▸ hf⟩
    | inr s' =>
      rw [corec_turn hf] at hn
      exact ih (hP s s' hs hf) hn

theorem mem_map_corec_exit {f : σ → ρ ⊕ σ} {s : σ} {r : ρ} (h : f s = Sum.inl r) (g : ρ → β)
    (b : β) : b ∈ g <$> corec f s ↔ g r = b := by
  rw [mem_map_iff, corec_exit h]
  simp only [mem_pure_iff, exists_eq_left]

theorem mem_map_corec_turn {f : σ → ρ ⊕ σ} {s s' : σ} (h : f s = Sum.inr s') (g : ρ → β) (b : β) :
    b ∈ g <$> corec f s ↔ b ∈ g <$> corec f s' := by
  rw [mem_map_iff, mem_map_iff, corec_turn h]
  constructor
  · intro ⟨r, hr, hb⟩
    exact ⟨r, of_think_mem hr, hb⟩
  · intro ⟨r, hr, hb⟩
    exact ⟨r, think_mem hr, hb⟩

/-- A turn that changes nothing is made for ever. -/
theorem not_mem_map_corec {f : σ → ρ ⊕ σ} {s : σ} (h : f s = Sum.inr s) (g : ρ → β) (b : β) :
    b ∉ g <$> corec f s := by
  have hnot : ¬ (corec f s).Terminates := by
    apply not_terminates_corec (· = s) _ rfl
    intro s' hs'
    exact ⟨s', hs' ▸ h, hs'⟩
  rw [mem_map_iff]
  intro ⟨r, hr, _⟩
  exact hnot ⟨r, hr⟩

/-- **Two loops whose bodies agree** under a map of the states and one of the results. -/
theorem corec_map {τ ρ' : Type} {f : σ → ρ ⊕ σ} {g : τ → ρ' ⊕ τ} {state : σ → τ}
    {result : ρ → ρ'} (h : ∀ s, g (state s) = Sum.map result state (f s)) (s : σ) :
    corec g (state s) = result <$> corec f s := by
  let R (c d : Computation ρ') : Prop := ∃ s, c = corec g (state s) ∧ d = result <$> corec f s
  refine eq_of_bisim R ?_ ⟨s, rfl, rfl⟩
  rintro c d ⟨s, rfl, rfl⟩
  have hturn := h s
  show BisimO R (destruct (corec g (state s))) (destruct (map result (corec f s)))
  rw [destruct_map, corec_eq, corec_eq, hturn]
  cases f s with
  | inl r => exact rfl
  | inr s' => exact ⟨s', rfl, rfl⟩

/-! ## Loops whose body is a computation -/

/-- One tick of `loop`: run the current body, and start the next one when it
asks for another turn. -/
def loopTick (body : σ → Computation (ρ ⊕ σ)) (c : Computation (ρ ⊕ σ)) :
    ρ ⊕ Computation (ρ ⊕ σ) :=
  match c.destruct with
  | Sum.inl (Sum.inl r) => Sum.inl r
  | Sum.inl (Sum.inr s) => Sum.inr (body s)
  | Sum.inr c' => Sum.inr c'

@[simp] theorem loopTick_think (body : σ → Computation (ρ ⊕ σ)) (c : Computation (ρ ⊕ σ)) :
    loopTick body (think c) = Sum.inr c := by
  simp [loopTick]

@[simp] theorem loopTick_exit (body : σ → Computation (ρ ⊕ σ)) (r : ρ) :
    loopTick body (pure (Sum.inl r)) = Sum.inl r := by
  simp [loopTick]

@[simp] theorem loopTick_turn (body : σ → Computation (ρ ⊕ σ)) (s : σ) :
    loopTick body (pure (Sum.inr s)) = Sum.inr (body s) := by
  simp [loopTick]

/-- `while` with a body that may itself diverge. -/
def loop (body : σ → Computation (ρ ⊕ σ)) (s : σ) : Computation ρ :=
  corec (loopTick body) (body s)

theorem mem_corec_loopTick_of_mem {body : σ → Computation (ρ ⊕ σ)} {c : Computation (ρ ⊕ σ)}
    {x : ρ ⊕ σ} (h : x ∈ c) (r : ρ) :
    r ∈ corec (loopTick body) c ↔ r ∈ corec (loopTick body) (pure x) := by
  refine memRecOn (C := fun c => r ∈ corec (loopTick body) c ↔ _) h Iff.rfl ?_
  intro c ih
  rw [corec_turn (loopTick_think body c), ← ih]
  exact ⟨of_think_mem, think_mem⟩

theorem exists_mem_of_mem_corec_loopTick {body : σ → Computation (ρ ⊕ σ)} {r : ρ} :
    ∀ (n : ℕ) (c : Computation (ρ ⊕ σ)), (corec (loopTick body) c).1 n = some r →
      ∃ x, x ∈ c := by
  intro n
  induction n with
  | zero =>
    intro c h
    cases c using recOn with
    | pure x => exact ⟨x, ret_mem x⟩
    | think c =>
      rw [corec_turn (loopTick_think body c), think_val_zero] at h
      exact absurd h (by simp)
  | succ n ih =>
    intro c h
    cases c using recOn with
    | pure x => exact ⟨x, ret_mem x⟩
    | think c =>
      rw [corec_turn (loopTick_think body c)] at h
      obtain ⟨x, hx⟩ := ih c h
      exact ⟨x, think_mem hx⟩

theorem mem_loop_iff (body : σ → Computation (ρ ⊕ σ)) (s : σ) (r : ρ) :
    r ∈ loop body s ↔
      Sum.inl r ∈ body s ∨ ∃ s', Sum.inr s' ∈ body s ∧ r ∈ loop body s' := by
  constructor
  · rintro ⟨n, hn⟩
    obtain ⟨x, hx⟩ := exists_mem_of_mem_corec_loopTick n (body s) hn.symm
    have hr : r ∈ corec (loopTick body) (pure x) :=
      (mem_corec_loopTick_of_mem hx r).mp ⟨n, hn⟩
    cases x with
    | inl r' =>
      rw [corec_exit (loopTick_exit body r'), mem_pure_iff] at hr
      exact Or.inl (hr ▸ hx)
    | inr s' =>
      rw [corec_turn (loopTick_turn body s')] at hr
      exact Or.inr ⟨s', hx, of_think_mem hr⟩
  · rintro (hx | ⟨s', hx, hr⟩)
    · apply (mem_corec_loopTick_of_mem hx r).mpr
      rw [corec_exit (loopTick_exit body r)]
      exact ret_mem r
    · apply (mem_corec_loopTick_of_mem hx r).mpr
      rw [corec_turn (loopTick_turn body s')]
      exact think_mem hr

theorem terminates_loop_iff (body : σ → Computation (ρ ⊕ σ)) (s : σ) :
    (loop body s).Terminates ↔
      (∃ r, Sum.inl r ∈ body s) ∨ ∃ s', Sum.inr s' ∈ body s ∧ (loop body s').Terminates := by
  simp only [terminates_iff, mem_loop_iff body s]
  constructor
  · rintro ⟨r, hr | ⟨s', hs', hr⟩⟩
    · exact Or.inl ⟨r, hr⟩
    · exact Or.inr ⟨s', hs', r, hr⟩
  · rintro (⟨r, hr⟩ | ⟨s', hs', r, hr⟩)
    · exact ⟨r, Or.inl hr⟩
    · exact ⟨r, Or.inr ⟨s', hs', hr⟩⟩

/-- A set of states that the body never leaves holds a diverging loop, whether the body
itself returns or not. -/
theorem not_terminates_loop {body : σ → Computation (ρ ⊕ σ)} (P : σ → Prop)
    (hP : ∀ s, P s → ∀ x ∈ body s, ∃ s', x = Sum.inr s' ∧ P s') {s : σ} (hs : P s) :
    ¬ (loop body s).Terminates := by
  -- the states of `corec` are the bodies that are still running
  apply not_terminates_corec fun c => ∀ x ∈ c, ∃ s', x = Sum.inr s' ∧ P s'
  · intro c hc
    cases c using recOn with
    | pure x =>
      obtain ⟨s', rfl, hs'⟩ := hc x (ret_mem x)
      exact ⟨body s', loopTick_turn body s', hP s' hs'⟩
    | think c => exact ⟨c, loopTick_think body c, fun x hx => hc x (think_mem hx)⟩
  · exact hP s hs

end Computation
