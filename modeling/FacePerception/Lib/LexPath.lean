import Mathlib.Data.List.Basic
import Mathlib.Data.Int.Notation

/-!
# Lexical resolution of paths

A relative path is a list of components. Each one stays where it is (`.` or an
empty component), goes up (`..`) or goes down (a name). Resolving keeps the stack
of the names gone down through; going up from an empty stack climbs above the
directory the path starts from.

* `isSome_resolve_iff`: a path never climbs above its start iff no prefix of it
  has more components going up than going down.
* `isSome_resolve_append`: a component at the end that does not go up makes no
  difference.
-/

namespace LexPath

/-- What a component does. -/
inductive Kind
  | stay
  | up
  | down
deriving DecidableEq

variable {κ : Type} (kind : κ → Kind)

/-- Follow one component; `none` above the start. -/
def enter (stack : List κ) (c : κ) : Option (List κ) :=
  match kind c with
  | .stay => some stack
  | .up => if stack = [] then none else some stack.tail
  | .down => some (c :: stack)

/-- Follow a path from `stack` on. -/
def resolve (stack : List κ) (path : List κ) : Option (List κ) := path.foldlM (enter kind) stack

/-- How far one component leads down. -/
def Kind.drop : Kind → ℤ
  | .stay => 0
  | .up => -1
  | .down => 1

/-- How far a path leads down. -/
def depth : List κ → ℤ
  | [] => 0
  | c :: path => (kind c).drop + depth path

@[simp] theorem resolve_nil (stack : List κ) : resolve kind stack [] = some stack := rfl

@[simp] theorem resolve_cons (stack : List κ) (c : κ) (path : List κ) :
    resolve kind stack (c :: path) =
      (enter kind stack c).bind fun stack => resolve kind stack path := by
  rw [resolve, List.foldlM_cons]
  rfl

theorem resolve_append (stack : List κ) (path path' : List κ) :
    resolve kind stack (path ++ path') =
      (resolve kind stack path).bind fun stack => resolve kind stack path' := by
  rw [resolve, List.foldlM_append]
  rfl

@[simp] theorem depth_nil : depth kind [] = 0 := rfl

@[simp] theorem depth_cons (c : κ) (path : List κ) :
    depth kind (c :: path) = (kind c).drop + depth kind path := rfl

/-- Following one component, if it does not climb above the start, changes the
depth by what it says. -/
theorem enter_eq_some {stack stack' : List κ} {c : κ} (h : enter kind stack c = some stack') :
    (stack'.length : ℤ) = stack.length + (kind c).drop := by
  unfold enter at h
  cases hk : kind c <;> simp only [hk] at h
  case stay =>
    cases h
    simp [Kind.drop]
  case up =>
    split_ifs at h with hne
    cases h
    have := List.length_pos_iff.mpr hne
    rw [List.length_tail, Kind.drop]
    omega
  case down =>
    cases h
    rw [List.length_cons, Kind.drop]
    omega

theorem enter_eq_none {stack : List κ} {c : κ} (h : enter kind stack c = none) :
    (stack.length : ℤ) + (kind c).drop < 0 := by
  unfold enter at h
  cases hk : kind c <;> simp only [hk] at h
  case stay => cases h
  case up =>
    split_ifs at h with hnil
    rw [hnil, List.length_nil, Kind.drop]
    omega
  case down => cases h

/-- **A path never climbs above its start** iff no prefix of it goes up more often
than down, counting what it starts with. -/
theorem isSome_resolve_iff (path : List κ) :
    ∀ stack : List κ, (resolve kind stack path).isSome ↔
      ∀ p, p <+: path → 0 ≤ (stack.length : ℤ) + depth kind p := by
  induction path with
  | nil =>
    intro stack
    simp
  | cons c path ih =>
    intro stack
    rw [resolve_cons]
    cases henter : enter kind stack c with
    | none =>
      have hneg := enter_eq_none kind henter
      simp only [Option.bind_none, Option.isSome_none, Bool.false_eq_true, false_iff]
      intro h
      have := h [c] (by simp)
      rw [depth_cons, depth_nil] at this
      omega
    | some stack' =>
      have hlen := enter_eq_some kind henter
      rw [Option.bind_some, ih stack']
      constructor
      · intro h p hp
        cases p with
        | nil => simp
        | cons d p =>
          obtain ⟨rfl, hp'⟩ := List.cons_prefix_cons.mp hp
          have := h p hp'
          rw [depth_cons]
          omega
      · intro h p hp
        have := h (c :: p) (List.cons_prefix_cons.mpr ⟨rfl, hp⟩)
        rw [depth_cons] at this
        omega

/-- A component that does not go up, at the end of a path, does not take it above
its start. -/
theorem isSome_resolve_append (stack : List κ) (path : List κ) {c : κ} (hc : kind c ≠ .up) :
    (resolve kind stack (path ++ [c])).isSome ↔ (resolve kind stack path).isSome := by
  rw [resolve_append]
  cases resolve kind stack path with
  | none => simp
  | some stack' =>
    cases hk : kind c
    case up => exact absurd hk hc
    all_goals simp [enter, hk]

end LexPath
