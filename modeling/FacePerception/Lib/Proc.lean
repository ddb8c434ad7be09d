import FacePerception.Lib.Loop

/-!
# Imperative procedures

`Proc S E α` is a procedure on a state `S` that may run for ever, may end the
whole process with an `E`, or returns an `α`. It is Lean's own transformer
stack over Mathlib's `Computation`, so procedures are written in `do` notation.

* `Proc.Returns p s a s'`: started in `s`, `p` returns `a` and leaves `s'`.
* `Proc.Dies p s e s'`: started in `s`, `p` ends the process with `e`.
* `Proc.Ends p s s'`: either of the two, in `s'`.
* `Proc.returns_bind`, `Proc.dies_bind`, `Proc.halts_bind`: how the two compose.
-/

/-- Procedures on a state `S` that may diverge, end the process with an `E`, or
return an `α`. -/
abbrev Proc (S E α : Type) : Type := ExceptT E (StateT S Computation) α

namespace Proc

variable {S E α β : Type}

/-- The computation started by calling `p` in state `s`. -/
def call (p : Proc S E α) (s : S) : Computation (Except E α × S) := StateT.run (ExceptT.run p) s

/-- `p` called in `s` returns `a` in state `s'`. -/
def Returns (p : Proc S E α) (s : S) (a : α) (s' : S) : Prop := (Except.ok a, s') ∈ p.call s

/-- `p` called in `s` ends the process with `e` in state `s'`. -/
def Dies (p : Proc S E α) (s : S) (e : E) (s' : S) : Prop := (Except.error e, s') ∈ p.call s

/-- `p` called in `s` ends in `s'`, whether it returns or ends the process. -/
def Ends (p : Proc S E α) (s s' : S) : Prop := ∃ x, (x, s') ∈ p.call s

/-- `p` called in `s` does not run for ever. -/
def Halts (p : Proc S E α) (s : S) : Prop := (p.call s).Terminates

/-- A diverging function of part of the state, seen as a procedure. -/
def onPart {T : Type} (get : S → T) (set : T → S → S) (f : T → Computation (α × T)) :
    Proc S E α :=
  fun s => (fun r => (Except.ok r.1, set r.2 s)) <$> f (get s)

/-! ## Rules -/

theorem mem_call_bind (p : Proc S E α) (f : α → Proc S E β) (s : S) (r : Except E β × S) :
    r ∈ (p >>= f).call s ↔
      (∃ a s', Returns p s a s' ∧ r ∈ (f a).call s') ∨
        ∃ e s', Dies p s e s' ∧ r = (Except.error e, s') := by
  show r ∈ (p.call s >>= fun x => ExceptT.bindCont f x.1 x.2) ↔ _
  rw [Computation.mem_bind_iff]
  constructor
  · rintro ⟨⟨x, s'⟩, hx, hr⟩
    cases x with
    | ok a => exact Or.inl ⟨a, s', hx, hr⟩
    | error e => exact Or.inr ⟨e, s', hx, (Computation.mem_pure_iff _ _).mp hr⟩
  · rintro (⟨a, s', hx, hr⟩ | ⟨e, s', hx, rfl⟩)
    · exact ⟨(Except.ok a, s'), hx, hr⟩
    · exact ⟨(Except.error e, s'), hx, Computation.ret_mem _⟩

theorem returns_bind (p : Proc S E α) (f : α → Proc S E β) (s : S) (b : β) (s' : S) :
    Returns (p >>= f) s b s' ↔ ∃ a t, Returns p s a t ∧ Returns (f a) t b s' := by
  simp [Returns, mem_call_bind]

theorem dies_bind (p : Proc S E α) (f : α → Proc S E β) (s : S) (e : E) (s' : S) :
    Dies (p >>= f) s e s' ↔ Dies p s e s' ∨ ∃ a t, Returns p s a t ∧ Dies (f a) t e s' := by
  simp only [Dies, mem_call_bind, Prod.mk.injEq, Except.error.injEq]
  constructor
  · rintro (h | ⟨e', t, h, rfl, rfl⟩)
    · exact Or.inr h
    · exact Or.inl h
  · rintro (h | h)
    · exact Or.inr ⟨e, s', h, rfl, rfl⟩
    · exact Or.inl h

theorem ends_iff (p : Proc S E α) (s s' : S) :
    Ends p s s' ↔ (∃ a, Returns p s a s') ∨ ∃ e, Dies p s e s' := by
  constructor
  · rintro ⟨x, hx⟩
    cases x with
    | ok a => exact Or.inl ⟨a, hx⟩
    | error e => exact Or.inr ⟨e, hx⟩
  · rintro (⟨a, h⟩ | ⟨e, h⟩)
    · exact ⟨_, h⟩
    · exact ⟨_, h⟩

theorem halts_iff_ends (p : Proc S E α) (s : S) : Halts p s ↔ ∃ s', Ends p s s' := by
  rw [Halts, Computation.terminates_iff]
  constructor
  · rintro ⟨⟨x, s'⟩, hx⟩
    exact ⟨s', x, hx⟩
  · rintro ⟨s', x, hx⟩
    exact ⟨(x, s'), hx⟩

theorem halts_iff (p : Proc S E α) (s : S) :
    Halts p s ↔ (∃ a s', Returns p s a s') ∨ ∃ e s', Dies p s e s' := by
  rw [halts_iff_ends]
  simp only [ends_iff]
  constructor
  · rintro ⟨s', ⟨a, h⟩ | ⟨e, h⟩⟩
    · exact Or.inl ⟨a, s', h⟩
    · exact Or.inr ⟨e, s', h⟩
  · rintro (⟨a, s', h⟩ | ⟨e, s', h⟩)
    · exact ⟨s', Or.inl ⟨a, h⟩⟩
    · exact ⟨s', Or.inr ⟨e, h⟩⟩

theorem halts_bind (p : Proc S E α) (f : α → Proc S E β) (s : S) :
    Halts (p >>= f) s ↔ (∃ a t, Returns p s a t ∧ Halts (f a) t) ∨ ∃ e t, Dies p s e t := by
  simp only [halts_iff, returns_bind, dies_bind]
  constructor
  · rintro (⟨b, s', a, t, hp, hf⟩ | ⟨e, s', hd | ⟨a, t, hp, hf⟩⟩)
    · exact Or.inl ⟨a, t, hp, Or.inl ⟨b, s', hf⟩⟩
    · exact Or.inr ⟨e, s', hd⟩
    · exact Or.inl ⟨a, t, hp, Or.inr ⟨e, s', hf⟩⟩
  · rintro (⟨a, t, hp, ⟨b, s', hf⟩ | ⟨e, s', hf⟩⟩ | ⟨e, t, hd⟩)
    · exact Or.inl ⟨b, s', a, t, hp, hf⟩
    · exact Or.inr ⟨e, s', Or.inr ⟨a, t, hp, hf⟩⟩
    · exact Or.inr ⟨e, t, Or.inl hd⟩

/-! ### Single steps -/

theorem call_pure (a : α) (s : S) :
    (pure a : Proc S E α).call s = Computation.pure (Except.ok a, s) := rfl

theorem call_throw (e : E) (s : S) :
    (throw e : Proc S E α).call s = Computation.pure (Except.error e, s) := rfl

theorem call_modify (f : S → S) (s : S) :
    (modify f : Proc S E Unit).call s = Computation.pure (Except.ok (), f s) := by
  show Computation.bind (Computation.pure ((), f s))
    (fun x => Computation.pure (Except.ok x.1, x.2)) = _
  rw [Computation.ret_bind]

theorem call_get (s : S) :
    (get : Proc S E S).call s = Computation.pure (Except.ok s, s) := by
  show Computation.bind (Computation.pure (s, s))
    (fun x => Computation.pure (Except.ok x.1, x.2)) = _
  rw [Computation.ret_bind]

@[simp] theorem returns_pure (a b : α) (s s' : S) :
    Returns (pure a : Proc S E α) s b s' ↔ b = a ∧ s' = s := by
  rw [Returns, call_pure, Computation.mem_pure_iff]
  simp

@[simp] theorem dies_pure (a : α) (s s' : S) (e : E) :
    ¬ Dies (pure a : Proc S E α) s e s' := by
  rw [Dies, call_pure, Computation.mem_pure_iff]
  simp

@[simp] theorem returns_throw (a : α) (s s' : S) (e : E) :
    ¬ Returns (throw e : Proc S E α) s a s' := by
  rw [Returns, call_throw, Computation.mem_pure_iff]
  simp

@[simp] theorem dies_throw (s s' : S) (e e' : E) :
    Dies (throw e : Proc S E α) s e' s' ↔ e' = e ∧ s' = s := by
  rw [Dies, call_throw, Computation.mem_pure_iff]
  simp

@[simp] theorem returns_modify (f : S → S) (u : Unit) (s s' : S) :
    Returns (modify f : Proc S E Unit) s u s' ↔ s' = f s := by
  rw [Returns, call_modify, Computation.mem_pure_iff]
  simp

@[simp] theorem dies_modify (f : S → S) (s s' : S) (e : E) :
    ¬ Dies (modify f : Proc S E Unit) s e s' := by
  rw [Dies, call_modify, Computation.mem_pure_iff]
  simp

@[simp] theorem returns_get (a s s' : S) :
    Returns (get : Proc S E S) s a s' ↔ a = s ∧ s' = s := by
  rw [Returns, call_get, Computation.mem_pure_iff]
  simp

@[simp] theorem dies_get (s s' : S) (e : E) : ¬ Dies (get : Proc S E S) s e s' := by
  rw [Dies, call_get, Computation.mem_pure_iff]
  simp

theorem returns_onPart {T : Type} (get : S → T) (set : T → S → S)
    (f : T → Computation (α × T)) (a : α) (s s' : S) :
    Returns (onPart get set f : Proc S E α) s a s' ↔
      ∃ t, (a, t) ∈ f (get s) ∧ s' = set t s := by
  show (Except.ok a, s') ∈ (fun r => (Except.ok r.1, set r.2 s)) <$> f (get s) ↔ _
  rw [Computation.mem_map_iff]
  constructor
  · rintro ⟨⟨a', t⟩, h, heq⟩
    cases heq
    exact ⟨t, h, rfl⟩
  · rintro ⟨t, h, rfl⟩
    exact ⟨(a, t), h, rfl⟩

@[simp] theorem dies_onPart {T : Type} (get : S → T) (set : T → S → S)
    (f : T → Computation (α × T)) (e : E) (s s' : S) :
    ¬ Dies (onPart get set f : Proc S E α) s e s' := by
  show ¬ (Except.error e, s') ∈ (fun r => (Except.ok r.1, set r.2 s)) <$> f (get s)
  rw [Computation.mem_map_iff]
  simp

end Proc
