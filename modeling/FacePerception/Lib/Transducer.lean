import Mathlib.Data.List.Infix

/-!
# Programs that read and write a stream

A program is what it does in each of its states: it ends, writes an item, or reads one. At
the end of the input a read gives `none`.

* `Exits.unique`: what a program reads decides what it does.
* `Does.resume`: a run that has not ended yet is on its way to the end of every run that
  ends on the same input.
* `exits_after_iff`: a program behind a text that is written first.
-/

namespace Transducer

variable {α Q : Type}

/-- What a program does next. -/
inductive Act (α Q : Type)
  | exit
  | write (c : α) (q : Q)
  | read (k : Option α → Q)

/-- What a program has done: it has written `c`, or a read has given it `c`. -/
inductive Did (α : Type)
  | wrote (c : α)
  | got (c : α)
deriving DecidableEq

def Act.map {R : Type} (f : Q → R) : Act α Q → Act α R
  | .exit => .exit
  | .write c q => .write c (f q)
  | .read k => .read fun a => f (k a)

/-- What has been written. -/
def written : List (Did α) → List α
  | [] => []
  | .wrote c :: es => c :: written es
  | .got _ :: es => written es

/-- What has been read. -/
def taken : List (Did α) → List α
  | [] => []
  | .wrote _ :: es => taken es
  | .got c :: es => c :: taken es

@[simp] theorem written_append (es es' : List (Did α)) :
    written (es ++ es') = written es ++ written es' := by
  induction es with
  | nil => rfl
  | cons e es ih => cases e <;> simp [written, ih]

@[simp] theorem taken_append (es es' : List (Did α)) :
    taken (es ++ es') = taken es ++ taken es' := by
  induction es with
  | nil => rfl
  | cons e es ih => cases e <;> simp [taken, ih]

@[simp] theorem written_map_wrote (text : List α) : written (text.map Did.wrote) = text := by
  induction text with
  | nil => rfl
  | cons c text ih => rw [List.map_cons, written, ih]

@[simp] theorem taken_map_wrote (text : List α) : taken (text.map Did.wrote) = [] := by
  induction text with
  | nil => rfl
  | cons c text ih => rw [List.map_cons, taken, ih]

@[simp] theorem written_map_got (text : List α) : written (text.map Did.got) = [] := by
  induction text with
  | nil => rfl
  | cons c text ih => rw [List.map_cons, written, ih]

@[simp] theorem taken_map_got (text : List α) : taken (text.map Did.got) = text := by
  induction text with
  | nil => rfl
  | cons c text ih => rw [List.map_cons, taken, ih]

/-! ## Runs of a program -/

/-- The program in the state `q` does `es` and ends. -/
inductive Exits (next : Q → Act α Q) : Q → List (Did α) → Prop
  | exit {q : Q} (h : next q = .exit) : Exits next q []
  | write {q q' : Q} {c : α} {es : List (Did α)} (h : next q = .write c q')
    (hes : Exits next q' es) : Exits next q (.wrote c :: es)
  | read {q : Q} {k : Option α → Q} {c : α} {es : List (Did α)} (h : next q = .read k)
    (hes : Exits next (k (some c)) es) : Exits next q (.got c :: es)

/-- The program in the state `q` does `es` and is then in the state `q'`. -/
inductive Does (next : Q → Act α Q) : Q → List (Did α) → Q → Prop
  | nothing {q : Q} : Does next q [] q
  | write {q q' r : Q} {c : α} {es : List (Did α)} (h : next q = .write c q')
    (hes : Does next q' es r) : Does next q (.wrote c :: es) r
  | read {q r : Q} {k : Option α → Q} {c : α} {es : List (Did α)} (h : next q = .read k)
    (hes : Does next (k (some c)) es r) : Does next q (.got c :: es) r

/-- With `input` before it the program writes `out` and ends. -/
def Yields (next : Q → Act α Q) (q : Q) (input out : List α) : Prop :=
  ∃ es rest, Exits next q es ∧ input = taken es ++ rest ∧ out = written es

section Runs

variable {next : Q → Act α Q} {q q' : Q} {es es' : List (Did α)}

theorem Does.trans {r : Q} (h : Does next q es q') (h' : Does next q' es' r) :
    Does next q (es ++ es') r := by
  induction h with
  | nothing => exact h'
  | write hnext _ ih => exact .write hnext (ih h')
  | read hnext _ ih => exact .read hnext (ih h')

theorem Does.exits (h : Does next q es q') (h' : Exits next q' es') :
    Exits next q (es ++ es') := by
  induction h with
  | nothing => exact h'
  | write hnext _ ih => exact .write hnext (ih h')
  | read hnext _ ih => exact .read hnext (ih h')

/-- **A run goes on to the end** that another run on the same input has come to. -/
theorem Does.resume {input rest rest' : List α} (h : Does next q es q')
    (hend : Exits next q es') (htaken : input = taken es ++ rest)
    (htaken' : input = taken es' ++ rest') :
    ∃ es'', es' = es ++ es'' ∧ Exits next q' es'' ∧ rest = taken es'' ++ rest' := by
  induction h generalizing input es' with
  | nothing => exact ⟨es', rfl, hend, by rw [← htaken', htaken]; rfl⟩
  | write hnext _ ih =>
    cases hend with
    | exit hnext' => rw [hnext] at hnext'; cases hnext'
    | write hnext' hend =>
      obtain ⟨rfl, rfl⟩ : _ ∧ _ := by simpa [hnext] using hnext'
      obtain ⟨es'', rfl, hend'', hrest⟩ := ih hend htaken htaken'
      exact ⟨es'', rfl, hend'', hrest⟩
    | read hnext' hend => rw [hnext] at hnext'; cases hnext'
  | read hnext _ ih =>
    cases hend with
    | exit hnext' => rw [hnext] at hnext'; cases hnext'
    | write hnext' hend => rw [hnext] at hnext'; cases hnext'
    | read hnext' hend =>
      obtain rfl : _ = _ := by simpa [hnext] using hnext'
      -- both have read the first item of the input
      rw [htaken, taken, taken, List.cons_append, List.cons_append, List.cons.injEq] at htaken'
      obtain ⟨rfl, htaken'⟩ := htaken'
      obtain ⟨es'', rfl, hend'', hrest⟩ := ih hend rfl htaken'
      exact ⟨es'', rfl, hend'', hrest⟩

/-- A run that has ended as one that has not. -/
theorem Exits.does (h : Exits next q es) : ∃ q', Does next q es q' ∧ next q' = .exit := by
  induction h with
  | exit hnext => exact ⟨_, .nothing, hnext⟩
  | write hnext _ ih =>
    obtain ⟨q', hdoes, hexit⟩ := ih
    exact ⟨q', .write hnext hdoes, hexit⟩
  | read hnext _ ih =>
    obtain ⟨q', hdoes, hexit⟩ := ih
    exact ⟨q', .read hnext hdoes, hexit⟩

/-- **What is read decides what is done.** -/
theorem Exits.unique {input rest rest' : List α} (h : Exits next q es) (h' : Exits next q es')
    (htaken : input = taken es ++ rest) (htaken' : input = taken es' ++ rest') :
    es' = es ∧ rest' = rest := by
  obtain ⟨q', hdoes, hexit⟩ := h.does
  obtain ⟨es'', rfl, hend, hrest⟩ := hdoes.resume h' htaken htaken'
  cases hend with
  | exit _ => exact ⟨List.append_nil _, hrest.symm⟩
  | write hnext _ => rw [hexit] at hnext; cases hnext
  | read hnext _ => rw [hexit] at hnext; cases hnext

theorem Yields.unique {input out out' : List α} (h : Yields next q input out)
    (h' : Yields next q input out') : out' = out := by
  obtain ⟨es, rest, hend, htaken, rfl⟩ := h
  obtain ⟨es', rest', hend', htaken', rfl⟩ := h'
  rw [(hend.unique hend' htaken htaken').1]

end Runs

/-! ## A text before the program -/

/-- The program that writes a text and then becomes `next`. -/
def after (next : Q → Act α Q) : List α × Q → Act α (List α × Q)
  | (c :: text, q) => .write c (text, q)
  | ([], q) => (next q).map fun q => ([], q)

theorem exits_after_nil_iff {next : Q → Act α Q} {q : Q} {es : List (Did α)} :
    Exits (after next) ([], q) es ↔ Exits next q es := by
  constructor
  · intro h
    generalize hp : (([] : List α), q) = p at h
    induction h generalizing q with
    | exit hnext =>
      subst hp
      cases hq : next q <;> simp [after, hq, Act.map] at hnext
      exact .exit hq
    | write hnext _ ih =>
      subst hp
      cases hq : next q <;> simp [after, hq, Act.map] at hnext
      obtain ⟨rfl, hp'⟩ := hnext
      exact .write hq (ih hp')
    | read hnext _ ih =>
      subst hp
      cases hq : next q <;> simp [after, hq, Act.map] at hnext
      exact .read hq (ih (congrFun hnext _))
  · intro h
    induction h with
    | exit hq => exact .exit (by simp [after, hq, Act.map])
    | write hq _ ih => exact .write (by rw [after, hq]; rfl) ih
    | read hq _ ih => exact .read (by rw [after, hq]; rfl) ih

/-- The text comes first. -/
theorem exits_after_iff {next : Q → Act α Q} {text : List α} {q : Q} {es : List (Did α)} :
    Exits (after next) (text, q) es ↔
      ∃ es', es = text.map Did.wrote ++ es' ∧ Exits next q es' := by
  induction text generalizing es with
  | nil => simp [exits_after_nil_iff]
  | cons c text ih =>
    constructor
    · intro h
      cases h with
      | exit hnext => cases hnext
      | write hnext hes =>
        obtain ⟨rfl, rfl⟩ : c = _ ∧ (text, q) = _ := by simpa [after] using hnext
        obtain ⟨es', rfl, hes'⟩ := ih.mp hes
        exact ⟨es', rfl, hes'⟩
      | read hnext hes => cases hnext
    · rintro ⟨es', rfl, hes'⟩
      exact .write rfl (ih.mpr ⟨es', rfl, hes'⟩)

theorem yields_after_iff {next : Q → Act α Q} {text : List α} {q : Q} {input out : List α} :
    Yields (after next) (text, q) input out ↔
      ∃ out', out = text ++ out' ∧ Yields next q input out' := by
  constructor
  · rintro ⟨es, rest, hend, htaken, rfl⟩
    obtain ⟨es', rfl, hend'⟩ := exits_after_iff.mp hend
    exact ⟨written es', by simp, es', rest, hend', by simpa using htaken, rfl⟩
  · rintro ⟨out', rfl, es', rest, hend', htaken, rfl⟩
    exact ⟨_, rest, exits_after_iff.mpr ⟨es', rfl, hend'⟩, by simpa using htaken, by simp⟩

end Transducer
