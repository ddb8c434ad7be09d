import FacePerception.Lib.FairRuns
import Mathlib.Logic.Function.Basic

/-!
# Threads and one non-recursive mutex

A program says what a thread does next: take the mutex, release it, do a step on
the shared state, or nothing at all. A thread that comes to a taken mutex cannot
step, its own mutex included, and a release frees the mutex whoever holds it.

* `Disciplined`: the program locks and unlocks in turns, according to a predicate on
  the local states that says where a thread is inside a section.
* `Exclusive`: at most one thread is inside a section, and the mutex is taken
  exactly while one is.
* `exclusive_run`: a disciplined program keeps the threads exclusive.
* `Exclusive.progress`: and it does not deadlock.
* `Program.Disciplined.all_done`: if its steps decrease a measure, then every fair
  scheduler brings all threads to their ends.
-/

namespace Mutex

/-- What a thread does next; the new states are those after the step. -/
inductive Op (S L : Type)
  | lock (own : L)
  | unlock (own : L)
  | act (shared : S) (own : L)
  | halt

/-- Locks stand outside the sections and unlocks inside them; `Holds` says which local
states are inside. -/
def Op.Disciplined {S L : Type} (Holds : L → Prop) (own : L) : Op S L → Prop
  | .lock own' => ¬ Holds own ∧ Holds own'
  | .unlock own' => Holds own ∧ ¬ Holds own'
  | .act _ own' => Holds own' ↔ Holds own
  | .halt => True

/-- A step in the shared state `s` makes `s'` of it and leaves its thread with `own'`. -/
def Op.After {S L : Type} (s s' : S) (own' : L) : Op S L → Prop
  | .lock own => s' = s ∧ own' = own
  | .unlock own => s' = s ∧ own' = own
  | .act shared own => s' = shared ∧ own' = own
  | .halt => False

/-- A program: which thread a choice `M` of the scheduler moves, and what a thread
whose local state is `L` does then. -/
structure Program (M ι S L : Type) where
  who : M → ι
  next : M → S → L → Op S L

/-- The threads `ι`. `locked` is the mutex; `held i` says that thread `i` has taken
it and not released it since. -/
structure State (ι S L : Type) where
  shared : S
  locked : Bool
  held : ι → Bool
  own : ι → L

variable {M ι S L : Type}

/-- The threads at the start, with the mutex free. -/
def State.init (shared : S) (own : ι → L) : State ι S L where
  shared := shared
  locked := false
  held _ := false
  own := own

namespace Program

variable [DecidableEq ι] (P : Program M ι S L)

/-- One step of the thread `x` moves, if it can step. -/
def step (s : State ι S L) (x : M) : Option (State ι S L) :=
  let i := P.who x
  match P.next x s.shared (s.own i) with
  | .lock own =>
    if s.locked then none
    else some { s with
      locked := true, held := Function.update s.held i true,
      own := Function.update s.own i own }
  | .unlock own =>
    some { s with
      locked := false, held := Function.update s.held i false,
      own := Function.update s.own i own }
  | .act shared own => some { s with shared := shared, own := Function.update s.own i own }
  | .halt => none

/-- A thread that cannot step stays where it is. -/
def advance (s : State ι S L) (x : M) : State ι S L := (P.step s x).getD s

/-- The state a run reaches. -/
def run (s : State ι S L) (xs : List M) : State ι S L := xs.foldl P.advance s

/-- Thread `i` stands at a lock that is taken. -/
def Waits (s : State ι S L) (i : ι) : Prop :=
  s.locked = true ∧ ∃ x own, P.who x = i ∧ P.next x s.shared (s.own i) = .lock own

omit [DecidableEq ι] in
/-- Every thread locks and unlocks in turns. -/
def Disciplined (Holds : L → Prop) : Prop :=
  ∀ x s own, (P.next x s own).Disciplined Holds own

end Program

/-- At most one thread is inside a section, and the mutex tells whether one is. -/
structure Exclusive (Holds : L → Prop) (s : State ι S L) : Prop where
  held : ∀ i, s.held i = true ↔ Holds (s.own i)
  unique : ∀ i j, Holds (s.own i) → Holds (s.own j) → i = j
  locked : s.locked = true ↔ ∃ i, Holds (s.own i)

variable {Holds : L → Prop} {s : State ι S L}

theorem exclusive_init (shared : S) {own : ι → L} (h : ∀ i, ¬ Holds (own i)) :
    Exclusive Holds (State.init shared own) where
  held i := by simp [State.init, h i]
  unique i _ hi := absurd hi (h i)
  locked := by simp [State.init, h]

section Steps

variable [DecidableEq ι]

theorem exclusive_lock (h : Exclusive Holds s) (hfree : s.locked = false) (i : ι) {own : L}
    (hown : Holds own) :
    Exclusive Holds { s with
      locked := true, held := Function.update s.held i true,
      own := Function.update s.own i own } := by
  have hnone : ∀ j, ¬ Holds (s.own j) := by
    intro j hj
    have hlocked := h.locked.mpr ⟨j, hj⟩
    simp [hfree] at hlocked
  refine ⟨fun j => ?_, fun j k hj hk => ?_, ?_⟩
  · by_cases hji : j = i
    · subst hji
      simpa using hown
    · simpa [hji] using h.held j
  · have hi : ∀ l, Holds (Function.update s.own i own l) → l = i := by
      intro l hl
      by_contra hli
      rw [Function.update_of_ne hli] at hl
      exact hnone l hl
    exact (hi j hj).trans (hi k hk).symm
  · simp only [true_iff]
    exact ⟨i, by simpa using hown⟩

theorem exclusive_unlock (h : Exclusive Holds s) {i : ι} (hi : Holds (s.own i)) {own : L}
    (hown : ¬ Holds own) :
    Exclusive Holds { s with
      locked := false, held := Function.update s.held i false,
      own := Function.update s.own i own } := by
  have hnone : ∀ j, ¬ Holds (Function.update s.own i own j) := by
    intro j
    by_cases hji : j = i
    · subst hji
      simpa using hown
    · rw [Function.update_of_ne hji]
      intro hj
      exact hji (h.unique j i hj hi)
  refine ⟨fun j => ?_, fun j _ hj => absurd hj (hnone j), ?_⟩
  · have hj := hnone j
    by_cases hji : j = i
    · subst hji
      simpa using hj
    · simp only [Function.update_of_ne hji] at hj ⊢
      rw [h.held j]
  · simp [hnone]

theorem exclusive_act (h : Exclusive Holds s) (shared : S) (i : ι) {own : L}
    (hown : Holds own ↔ Holds (s.own i)) :
    Exclusive Holds { s with shared := shared, own := Function.update s.own i own } := by
  have hsame : ∀ j, Holds (Function.update s.own i own j) ↔ Holds (s.own j) := by
    intro j
    by_cases hji : j = i
    · subst hji
      simpa using hown
    · rw [Function.update_of_ne hji]
  refine ⟨fun j => ?_, fun j k hj hk => ?_, ?_⟩
  · rw [h.held j]
    exact (hsame j).symm
  · exact h.unique j k ((hsame j).mp hj) ((hsame k).mp hk)
  · rw [h.locked]
    exact exists_congr fun j => (hsame j).symm

variable {P : Program M ι S L}

/-- A thread can step unless it has come to a halt or to a taken lock. -/
theorem Program.step_isSome {x : M} (hhalt : P.next x s.shared (s.own (P.who x)) ≠ .halt)
    (hlock : ∀ own, P.next x s.shared (s.own (P.who x)) = .lock own → s.locked = false) :
    (P.step s x).isSome = true := by
  unfold Program.step
  cases hnext : P.next x s.shared (s.own (P.who x)) with
  | lock own => simp [hnext, hlock own hnext]
  | unlock own => simp [hnext]
  | act shared own => simp [hnext]
  | halt => exact absurd hnext hhalt

/-- What a step does to the shared state and to the local states. -/
theorem Program.step_after {x : M} {s' : State ι S L} (hstep : P.step s x = some s') :
    ∃ own, (P.next x s.shared (s.own (P.who x))).After s.shared s'.shared own ∧
      s'.own = Function.update s.own (P.who x) own := by
  unfold Program.step at hstep
  cases hnext : P.next x s.shared (s.own (P.who x)) with
  | lock own =>
    simp only [hnext] at hstep
    split_ifs at hstep
    rw [← Option.some.inj hstep]
    exact ⟨own, ⟨rfl, rfl⟩, rfl⟩
  | unlock own =>
    simp only [hnext, Option.some.injEq] at hstep
    rw [← hstep]
    exact ⟨own, ⟨rfl, rfl⟩, rfl⟩
  | act shared own =>
    simp only [hnext, Option.some.injEq] at hstep
    rw [← hstep]
    exact ⟨own, ⟨rfl, rfl⟩, rfl⟩
  | halt => simp [hnext] at hstep

theorem Program.Disciplined.step (hP : P.Disciplined Holds) (h : Exclusive Holds s) {x : M}
    {s' : State ι S L} (hstep : P.step s x = some s') : Exclusive Holds s' := by
  have hop := hP x s.shared (s.own (P.who x))
  unfold Program.step at hstep
  cases hnext : P.next x s.shared (s.own (P.who x)) with
  | lock own =>
    rw [hnext] at hop
    simp only [hnext] at hstep
    cases hfree : s.locked with
    | true => simp [hfree] at hstep
    | false =>
      simp only [hfree, Bool.false_eq_true, if_false, Option.some.injEq] at hstep
      exact hstep ▸ exclusive_lock h hfree _ hop.2
  | unlock own =>
    rw [hnext] at hop
    simp only [hnext, Option.some.injEq] at hstep
    exact hstep ▸ exclusive_unlock h hop.1 hop.2
  | act shared own =>
    rw [hnext] at hop
    simp only [hnext, Option.some.injEq] at hstep
    exact hstep ▸ exclusive_act h shared _ hop
  | halt => simp [hnext] at hstep

/-- An invariant of the steps that can be taken is one of the runs. -/
theorem Program.inv_run (I : State ι S L → Prop)
    (hI : ∀ s x s', I s → P.step s x = some s' → I s') (hs : I s) (xs : List M) :
    I (P.run s xs) := by
  apply Runs.inv_foldl I _ xs hs
  intro s x hs
  unfold Program.advance
  cases hstep : P.step s x with
  | none => exact hs
  | some s' => exact hI s x s' hs hstep

theorem exclusive_run (hP : P.Disciplined Holds) (h : Exclusive Holds s) (xs : List M) :
    Exclusive Holds (P.run s xs) :=
  P.inv_run (Exclusive Holds) (fun _ _ _ hs hstep => hP.step hs hstep) h xs

omit [DecidableEq ι] in
/-- A thread inside a section does not come to a lock. -/
theorem Program.Disciplined.not_lock (hP : P.Disciplined Holds) {x : M} {shared : S}
    {own own' : L} (hown : Holds own) : P.next x shared own ≠ .lock own' := by
  intro hnext
  have hop := hP x shared own
  rw [hnext] at hop
  exact hop.1 hown

omit [DecidableEq ι] in
/-- A thread that holds the mutex does not wait for it. -/
theorem Exclusive.not_waits (h : Exclusive Holds s) (hP : P.Disciplined Holds) {i : ι}
    (hi : s.held i = true) : ¬ P.Waits s i := by
  rintro ⟨-, x, own, -, hnext⟩
  exact hP.not_lock ((h.held i).mp hi) hnext

/-- **No deadlock.** If neither `i` nor any thread inside a section has come to a
halt, then some thread can step, whatever the choices about it are. -/
theorem Exclusive.progress (h : Exclusive Holds s) (hP : P.Disciplined Holds) {i : ι}
    (hi : ∀ x, P.who x = i → P.next x s.shared (s.own i) ≠ .halt)
    (hsection : ∀ j x, P.who x = j → Holds (s.own j) → P.next x s.shared (s.own j) ≠ .halt) :
    ∃ j, ∀ x, P.who x = j → (P.step s x).isSome = true := by
  cases hlocked : s.locked with
  | true =>
    obtain ⟨j, hj⟩ := h.locked.mp hlocked
    refine ⟨j, fun x hx => ?_⟩
    have hhalt := hsection j x hx hj
    subst hx
    exact P.step_isSome hhalt fun own hnext => absurd hnext (hP.not_lock hj)
  | false =>
    refine ⟨i, fun x hx => ?_⟩
    have hhalt := hi x hx
    subst hx
    exact P.step_isSome hhalt fun own _ => hlocked

/-! ## Fair schedulers -/

/-- **All threads come to their ends** under a fair scheduler, if a thread that is not
done does not halt and the steps decrease a measure. -/
theorem Program.Disciplined.all_done {β : Type} [Preorder β] [WellFoundedLT β]
    (hP : P.Disciplined Holds) (I : State ι S L → Prop) (Done : L → Prop)
    (hI : ∀ s x s', I s → P.step s x = some s' → I s') (μ : State ι S L → β)
    (hμ : ∀ s x s', I s → P.step s x = some s' → μ s' < μ s)
    (hhalt : ∀ s x, I s → ¬ Done (s.own (P.who x)) →
      P.next x s.shared (s.own (P.who x)) ≠ .halt)
    (hDone : ∀ own, Done own → ¬ Holds own) (hs : I s) (hex : Exclusive Holds s) {xs : ℕ → M}
    (hfair : Runs.Fair P.who xs) :
    ∃ n, ∀ m, n ≤ m → (∀ i, Done ((Runs.stateAt P.advance s xs m).own i)) ∧
      (Runs.stateAt P.advance s xs m).locked = false := by
  refine Runs.reaches μ (fun s => I s ∧ Exclusive Holds s)
    (fun s => (∀ i, Done (s.own i)) ∧ s.locked = false) P.who ?_ ?_ ?_ ⟨hs, hex⟩ hfair
  · rintro s x ⟨hs, hex⟩
    unfold Program.advance
    cases hstep : P.step s x with
    | none => exact ⟨hs, hex⟩
    | some s' => exact ⟨hI s x s' hs hstep, hP.step hex hstep⟩
  · rintro s x ⟨hs, -⟩ hmoved
    unfold Program.advance at hmoved ⊢
    cases hstep : P.step s x with
    | none => exact absurd (by rw [hstep]; rfl) hmoved
    | some s' => exact hμ s x s' hs hstep
  · rintro s ⟨hs, hex⟩ hnot
    have hunlocked : (∀ i, Done (s.own i)) → s.locked = false := by
      intro hall
      rw [Bool.eq_false_iff, ne_eq, hex.locked]
      rintro ⟨i, hi⟩
      exact hDone _ (hall i) hi
    obtain ⟨i, hi⟩ := not_forall.mp fun hall => hnot ⟨hall, hunlocked hall⟩
    obtain ⟨j, hj⟩ := hex.progress hP (i := i) (by rintro x rfl; exact hhalt s x hs hi)
      (by rintro j x rfl hj; exact hhalt s x hs fun hdone => hDone _ hdone hj)
    refine ⟨j, fun x hx hrest => ?_⟩
    obtain ⟨s', hstep⟩ := Option.isSome_iff_exists.mp (hj x hx)
    have hlt := hμ s x s' hs hstep
    unfold Program.advance at hrest
    rw [hstep, Option.getD_some] at hrest
    rw [hrest] at hlt
    exact lt_irrefl _ hlt

end Steps

end Mutex
