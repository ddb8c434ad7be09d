import FacePerception.Lib.CString
import Mathlib.Logic.Function.Basic

/-!
# The environment of a process

`putenv` and `getenv` of the C library: `putenv("NAME=VALUE")` sets `NAME`, and
`putenv` of a string without a `'='` removes the variable of that name. `getenv` is
function application; `none` is `NULL`.

* `foldl_putenv_of_ne`: strings with other names leave a variable alone.
-/

namespace Environment

open CString

/-- What each name stands for. -/
abbrev Environ : Type := Bytes → Option Bytes

/-- The name a string is about. -/
def nameOf (s : Bytes) : Bytes := s.takeWhile (· ≠ ch '=')

/-- `putenv`. -/
def putenv (e : Environ) (s : Bytes) : Environ :=
  Function.update e (nameOf s)
    (if ch '=' ∈ s then some (s.dropWhile (· ≠ ch '=')).tail else none)

example : putenv (fun _ => none) (bytes "A=b=c") (bytes "A") = some (bytes "b=c") := by decide

theorem putenv_of_ne {e : Environ} {s name : Bytes} (h : name ≠ nameOf s) :
    putenv e s name = e name := Function.update_of_ne h _ _

theorem foldl_putenv_of_ne {strings : List Bytes} {name : Bytes}
    (h : ∀ s ∈ strings, name ≠ nameOf s) (e : Environ) :
    strings.foldl putenv e name = e name := by
  induction strings generalizing e with
  | nil => rfl
  | cons s strings ih =>
    obtain ⟨hs, hstrings⟩ := List.forall_mem_cons.mp h
    rw [List.foldl_cons, ih hstrings, putenv_of_ne hs]

/-- A string that begins with `w` is about a name that begins with `w`, as long as there
is no `'='` in it. -/
theorem nameOf_append {w : Bytes} (hw : ch '=' ∉ w) (s : Bytes) :
    nameOf (w ++ s) = w ++ nameOf s := by
  refine List.takeWhile_append_of_pos fun c hc => ?_
  rw [decide_eq_true_eq]
  rintro rfl
  exact hw hc

end Environment
