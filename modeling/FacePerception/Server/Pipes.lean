import FacePerception.Lib.Runs
import FacePerception.Server.Accept

/-!
# `cgi_input` and `cgi_output`

The father of `exec_cgi` and its CGI program as two processes over two pipes
(`server/server_http.h`, lines 441–528): the father writes the body, then copies the
program's output to the client until it ends, and only then closes its end of
`cgi_input`. A pipe holds a bounded number of bytes; what the bytes are makes no
difference here. `recv` from the client and `send` to it are taken not to block.

Results:
* `inv_step`: what every step keeps when each `read` of the program finds a byte and
  its output fits until the body does.
* `of_not_fed`, `of_not_roomy`: runs to a deadlock when they do not.
* `never_deadlocks_iff`: when no interleaving reaches one.
* `reads_to_the_end`: a program that reads its standard input to the end.
-/

namespace FacePerception.Server.Pipes

open CString Runs

/-! ## The two processes -/

/-- What a CGI program can do: a `read` with room for `n + 1` bytes, such reads until one
of them returns 0, and a `write` of one byte. -/
inductive Op
  | read (n : ℕ)
  | readAll (n : ℕ)
  | write
deriving DecidableEq

/-- The father works, was ended by `SIGPIPE`, or has closed its pipes. -/
inductive Father
  | running
  | killed
  | done
deriving DecidableEq

/-- `left` bytes of the body are not written yet, `input` and `output` bytes are in the
pipes. `child` is what the program still does, `none` once it has exited. -/
structure State where
  left : ℕ
  input : ℕ
  output : ℕ
  child : Option (List Op)
  father : Father

inductive Move
  | father
  | child

/-- The father (lines 510–524) with a `cgi_input` of capacity `ci`; where it has to wait
the state stays. -/
def fatherStep (ci : ℕ) (s : State) : State :=
  match s.father with
  | .running =>
    if 0 < s.left then
      if s.child.isNone then { s with father := .killed }
      else if s.input < ci then { s with left := s.left - 1, input := s.input + 1 }
      else s
    else if 0 < s.output then { s with output := s.output - 1 }
    else if s.child.isNone then { s with father := .done }
    else s
  | _ => s

/-- The program with a `cgi_output` of capacity `co`. A `read` takes what there is, as far
as it has room. -/
def childStep (co : ℕ) (s : State) : State :=
  match s.child with
  | none => s
  | some [] => { s with child := none }
  | some (.read n :: ops) =>
    if 0 < s.input then
      { s with input := s.input - min (n + 1) s.input, child := some ops }
    else if s.father = .running then s
    else { s with child := some ops }
  | some (.readAll n :: ops) =>
    if 0 < s.input then { s with input := s.input - min (n + 1) s.input }
    else if s.father = .running then s
    else { s with child := some ops }
  | some (.write :: ops) =>
    if s.father = .running then
      if s.output < co then { s with output := s.output + 1, child := some ops } else s
    else { s with child := none }

def step (ci co : ℕ) (s : State) : Move → State
  | .father => fatherStep ci s
  | .child => childStep co s

/-- How many bytes the loop of line 513 writes. -/
def bodyLength (method : Bytes) (contentLength : ℤ) : ℕ :=
  if strcaseEq method (bytes "POST") then contentLength.toNat else 0

/-- What the child does: it prints (lines 475–497) and becomes the program. -/
def childOps (method query : Bytes) (contentLength : ℤ) (program : List Op) : List Op :=
  List.replicate (execCgiChild method query contentLength).printed.length .write ++ program

/-- Line 419: `exec_cgi` returns before there is a child. -/
def Declined (method : Bytes) (contentLength : ℤ) : Prop :=
  method ≠ bytes "GET" ∧ contentLength = -1

instance decidableDeclined (method : Bytes) (contentLength : ℤ) :
    Decidable (Declined method contentLength) :=
  inferInstanceAs (Decidable (_ ∧ _))

/-- Behind `fork` (line 455). -/
def start (method query : Bytes) (contentLength : ℤ) (program : List Op) : State :=
  if Declined method contentLength then ⟨0, 0, 0, none, .done⟩
  else
    { left := bodyLength method contentLength
      input := 0
      output := 0
      child := some (childOps method query contentLength program)
      father := .running }

/-! ## Waiting for each other -/

/-- The father waits for the child: `cgi_input` is full, or `cgi_output` is empty. -/
def FatherBlocked (ci : ℕ) (s : State) : Prop :=
  s.father = .running ∧ s.child ≠ none ∧
    (0 < s.left ∧ ci ≤ s.input ∨ s.left = 0 ∧ s.output = 0)

/-- The child waits for the father: `cgi_input` is empty, or `cgi_output` is full. -/
def ChildBlocked (co : ℕ) (s : State) : Prop :=
  s.father = .running ∧
    match s.child with
    | some (.read _ :: _) => s.input = 0
    | some (.readAll _ :: _) => s.input = 0
    | some (.write :: _) => co ≤ s.output
    | _ => False

def Deadlock (ci co : ℕ) (s : State) : Prop := FatherBlocked ci s ∧ ChildBlocked co s

/-- No interleaving of the two comes to a deadlock. -/
def NeverDeadlocks (ci co : ℕ) (s : State) : Prop :=
  ∀ moves : List Move, ¬ Deadlock ci co (moves.foldl (step ci co) s)

/-- Each `read` finds a byte of the `left` ones, even if those before it take all that their
room and a pipe of capacity `ci` allow, and nothing reads to the end. -/
def Fed (ci : ℕ) : ℕ → List Op → Prop
  | _, [] => True
  | left, .read n :: ops => 0 < left ∧ Fed ci (left - min (n + 1) ci) ops
  | _, .readAll _ :: _ => False
  | left, .write :: ops => Fed ci left ops

/-- When `room` bytes have gone into `cgi_output` and another is written, what is left of the
`left` bytes fits in `cgi_input`, even if each `read` before takes only one. -/
def Roomy (ci : ℕ) : ℕ → ℕ → List Op → Prop
  | _, _, [] => True
  | room, left, .read _ :: ops => Roomy ci room (left - 1) ops
  | _, _, .readAll _ :: _ => True
  | 0, left, .write :: _ => left ≤ ci
  | room + 1, left, .write :: ops => Roomy ci room left ops

instance decidableFed (ci : ℕ) : ∀ left ops, Decidable (Fed ci left ops)
  | _, [] => isTrue trivial
  | left, .read n :: ops => @instDecidableAnd _ _ _ (decidableFed ci (left - min (n + 1) ci) ops)
  | _, .readAll _ :: _ => isFalse id
  | left, .write :: ops => decidableFed ci left ops

instance decidableRoomy (ci : ℕ) : ∀ room left ops, Decidable (Roomy ci room left ops)
  | _, _, [] => isTrue trivial
  | room, left, .read _ :: ops => decidableRoomy ci room (left - 1) ops
  | 0, _, .readAll _ :: _ => isTrue trivial
  | _ + 1, _, .readAll _ :: _ => isTrue trivial
  | 0, left, .write :: _ => Nat.decLe left ci
  | room + 1, left, .write :: ops => decidableRoomy ci room left ops

theorem Fed.mono {ci : ℕ} {ops : List Op} :
    ∀ {left left' : ℕ}, left ≤ left' → Fed ci left ops → Fed ci left' ops := by
  induction ops with
  | nil => intro left left' _ _; trivial
  | cons op ops ih =>
    intro left left' hle h
    cases op with
    | read n =>
      obtain ⟨hpos, h⟩ := h
      exact ⟨by omega, ih (by omega) h⟩
    | readAll n => exact h
    | write => exact ih hle h

theorem Roomy.mono {ci : ℕ} {ops : List Op} :
    ∀ {room left left' : ℕ}, left' ≤ left → Roomy ci room left ops → Roomy ci room left' ops := by
  induction ops with
  | nil =>
    intro room left left' _ _
    cases room <;> trivial
  | cons op ops ih =>
    intro room left left' hle h
    cases op with
    | read n =>
      rw [Roomy] at h ⊢
      exact ih (by omega) h
    | readAll n => cases room <;> trivial
    | write =>
      cases room with
      | zero => exact hle.trans h
      | succ room => exact ih hle h

/-! ## What a step does while both work -/

/-- Both processes work. -/
def both (left input output : ℕ) (ops : List Op) : State :=
  ⟨left, input, output, some ops, .running⟩

section Steps

variable {ci co left input output n : ℕ} {ops : List Op}

theorem step_father_write (h : input < ci) :
    step ci co (both (left + 1) input output ops) .father = both left (input + 1) output ops := by
  simp [step, fatherStep, both, h]

theorem step_father_full (h : ci ≤ input) :
    step ci co (both (left + 1) input output ops) .father = both (left + 1) input output ops := by
  simp [step, fatherStep, both, h]

theorem step_father_relay :
    step ci co (both 0 input (output + 1) ops) .father = both 0 input output ops := by
  simp [step, fatherStep, both]

theorem step_father_empty :
    step ci co (both 0 input 0 ops) .father = both 0 input 0 ops := by
  simp [step, fatherStep, both]

theorem step_child_exit :
    (step ci co (both left input output []) .child).child = none := rfl

theorem step_child_read (h : 0 < input) :
    step ci co (both left input output (.read n :: ops)) .child =
      both left (input - min (n + 1) input) output ops := by
  simp [step, childStep, both, h]

theorem step_child_read_empty :
    step ci co (both left 0 output (.read n :: ops)) .child =
      both left 0 output (.read n :: ops) := rfl

theorem step_child_readAll (h : 0 < input) :
    step ci co (both left input output (.readAll n :: ops)) .child =
      both left (input - min (n + 1) input) output (.readAll n :: ops) := by
  simp [step, childStep, both, h]

theorem step_child_write (h : output < co) :
    step ci co (both left input output (.write :: ops)) .child =
      both left input (output + 1) ops := by
  simp [step, childStep, both, h]

theorem step_child_full (h : co ≤ output) :
    step ci co (both left input output (.write :: ops)) .child =
      both left input output (.write :: ops) := by
  simp [step, childStep, both, Nat.not_lt.mpr h]

theorem step_exited {s : State} (h : s.child = none) (m : Move) :
    (step ci co s m).child = none := by
  cases m with
  | father =>
    show (fatherStep ci s).child = none
    unfold fatherStep
    split
    · split_ifs <;> exact h
    · exact h
  | child =>
    show (childStep co s).child = none
    unfold childStep
    rw [h]
    exact h

end Steps

/-! ## No deadlock -/

/-- What holds between the steps while both work. -/
structure Going (ci co left input output : ℕ) (ops : List Op) : Prop where
  input_le : input ≤ ci
  output_le : output ≤ co
  fed : Fed ci (left + input) ops
  roomy : 0 < left → Roomy ci (co - output) (left + input) ops

/-- The father works as long as the child does, so its end of `cgi_input` is open. -/
def Inv (ci co : ℕ) (s : State) : Prop :=
  s.child = none ∨ ∃ left input output ops,
    s = both left input output ops ∧ Going ci co left input output ops

section Run

variable {ci co left input output : ℕ} {ops : List Op}

theorem Going.inv (h : Going ci co left input output ops) :
    Inv ci co (both left input output ops) :=
  Or.inr ⟨left, input, output, ops, rfl, h⟩

theorem Going.father (h : Going ci co left input output ops) :
    Inv ci co (step ci co (both left input output ops) .father) := by
  cases left with
  | zero =>
    cases output with
    | zero =>
      rw [step_father_empty]
      exact h.inv
    | succ output =>
      rw [step_father_relay]
      have hle : output ≤ co := (Nat.le_succ output).trans h.output_le
      exact Going.inv ⟨h.input_le, hle, h.fed, fun hpos => absurd hpos (lt_irrefl 0)⟩
  | succ left =>
    rcases Nat.lt_or_ge input ci with hroom | hfull
    · rw [step_father_write hroom]
      have hsum : left + (input + 1) = left + 1 + input := by omega
      exact Going.inv ⟨hroom, h.output_le, hsum ▸ h.fed, fun _ => hsum ▸ h.roomy left.succ_pos⟩
    · rw [step_father_full hfull]
      exact h.inv

theorem Going.child (h : Going ci co left input output ops) :
    Inv ci co (step ci co (both left input output ops) .child) := by
  have hin := h.input_le
  match ops with
  | [] => exact Or.inl step_child_exit
  | .read n :: ops =>
    rcases Nat.eq_zero_or_pos input with rfl | hpos
    · rw [step_child_read_empty]
      exact h.inv
    · rw [step_child_read hpos]
      refine Going.inv ⟨by omega, h.output_le, h.fed.2.mono (by omega), ?_⟩
      intro hleft
      have hroomy : Roomy ci (co - output) (left + input - 1) ops := by
        have hread := h.roomy hleft
        rwa [Roomy] at hread
      exact hroomy.mono (by omega)
  | .readAll n :: ops => exact h.fed.elim
  | .write :: ops =>
    rcases Nat.lt_or_ge output co with hroom | hfull
    · rw [step_child_write hroom]
      refine Going.inv ⟨hin, hroom, h.fed, ?_⟩
      intro hleft
      have hwrite := h.roomy hleft
      rw [show co - output = co - (output + 1) + 1 by omega] at hwrite
      exact hwrite
    · rw [step_child_full hfull]
      exact h.inv

/-- **The step.** -/
theorem inv_step (s : State) (m : Move) (hs : Inv ci co s) : Inv ci co (step ci co s m) := by
  rcases hs with hexited | ⟨left, input, output, ops, rfl, h⟩
  · exact Or.inl (step_exited hexited m)
  · cases m with
    | father => exact h.father
    | child => exact h.child

theorem Inv.not_deadlock (hci : 0 < ci) (hco : 0 < co) {s : State} (hs : Inv ci co s) :
    ¬ Deadlock ci co s := by
  intro ⟨⟨_, hchild, hfather⟩, _, hwaits⟩
  rcases hs with hexited | ⟨left, input, output, ops, rfl, h⟩
  · exact hchild hexited
  · change 0 < left ∧ ci ≤ input ∨ left = 0 ∧ output = 0 at hfather
    match ops with
    | [] => exact hwaits
    | .read n :: ops =>
      have hempty : input = 0 := hwaits
      have hpos : 0 < left + input := h.fed.1
      omega
    | .readAll n :: ops => exact h.fed
    | .write :: ops =>
      have hfull : co ≤ output := hwaits
      rcases hfather with ⟨hleft, hin⟩ | ⟨-, hempty⟩
      · have hfits : left + input ≤ ci := by
          have hroomy := h.roomy hleft
          rw [show co - output = 0 by omega] at hroomy
          exact hroomy
        omega
      · omega

end Run

/-! ## A run to a deadlock -/

section Reach

variable {ci co : ℕ}

/-- Some run from `s` ends in a deadlock. -/
def CanDeadlock (ci co : ℕ) (s : State) : Prop := CanReach (step ci co) (Deadlock ci co) s

/-- The father may write as long as there is room. -/
theorem of_filled {output : ℕ} {ops : List Op} (left : ℕ) :
    ∀ {input : ℕ}, input ≤ ci →
      (∀ left' input', left' + input' = left + input → input' ≤ ci →
        left' = 0 ∨ input' = ci → CanDeadlock ci co (both left' input' output ops)) →
      CanDeadlock ci co (both left input output ops) := by
  induction left with
  | zero =>
    intro input hin h
    exact h 0 input rfl hin (Or.inl rfl)
  | succ left ih =>
    intro input hin h
    rcases Nat.lt_or_ge input ci with hroom | hfull
    · apply CanReach.of_step Move.father
      rw [step_father_write hroom]
      apply ih hroom
      intro left' input' hsum
      exact h left' input' (by omega)
    · exact h (left + 1) input rfl hin (Or.inr (le_antisymm hin hfull))

/-- The father may send what the program has written when the body is written. -/
theorem of_drained {input : ℕ} {ops : List Op}
    (h : CanDeadlock ci co (both 0 input 0 ops)) (output : ℕ) :
    CanDeadlock ci co (both 0 input output ops) := by
  induction output with
  | zero => exact h
  | succ output ih =>
    apply CanReach.of_step Move.father
    rwa [step_father_relay]

theorem canDeadlock_read (output n : ℕ) (ops : List Op) :
    CanDeadlock ci co (both 0 0 output (.read n :: ops)) := by
  apply of_drained
  exact CanReach.of_now ⟨⟨rfl, by simp [both], Or.inr ⟨rfl, rfl⟩⟩, rfl, rfl⟩

theorem canDeadlock_write {left input output : ℕ} (hleft : 0 < left)
    (hin : ci ≤ input) (hout : co ≤ output) (ops : List Op) :
    CanDeadlock ci co (both left input output (.write :: ops)) :=
  CanReach.of_now ⟨⟨rfl, by simp [both], Or.inl ⟨hleft, hin⟩⟩, rfl, hout⟩

/-- A program that reads to the end waits for an end that never comes. -/
theorem canDeadlock_readAll (hci : 0 < ci) (n output : ℕ) (ops : List Op) (total : ℕ) :
    ∀ {left input : ℕ}, left + input ≤ total → input ≤ ci →
      CanDeadlock ci co (both left input output (.readAll n :: ops)) := by
  induction total with
  | zero =>
    intro left input hsum _
    obtain rfl : left = 0 := by omega
    obtain rfl : input = 0 := by omega
    apply of_drained
    exact CanReach.of_now ⟨⟨rfl, by simp [both], Or.inr ⟨rfl, rfl⟩⟩, rfl, rfl⟩
  | succ total ih =>
    intro left input hsum hin
    apply of_filled left hin
    intro left' input' hsum' hin' hfilled
    rcases Nat.eq_zero_or_pos input' with rfl | hpos
    · obtain rfl : left' = 0 := by omega
      exact ih (by omega) hin'
    · apply CanReach.of_step Move.child
      rw [step_child_readAll hpos]
      exact ih (by omega) (by omega)

/-- The father is always first: each read takes as much as it can. -/
theorem of_not_fed (hci : 0 < ci) (hco : 0 < co) (ops : List Op) :
    ∀ {left input output : ℕ}, input ≤ ci → output ≤ co → ¬ Fed ci (left + input) ops →
      CanDeadlock ci co (both left input output ops) := by
  induction ops with
  | nil =>
    intro left input output _ _ h
    exact absurd trivial h
  | cons op ops ih =>
    intro left input output hin hout h
    apply of_filled left hin
    intro left' input' hsum hin' hfilled
    cases op with
    | read n =>
      rcases Nat.eq_zero_or_pos input' with rfl | hpos
      · obtain rfl : left' = 0 := by omega
        exact canDeadlock_read output n ops
      · apply CanReach.of_step Move.child
        rw [step_child_read hpos]
        apply ih (by omega) hout
        have htaken : left' + (input' - min (n + 1) input') = left + input - min (n + 1) ci := by
          omega
        rw [htaken]
        exact fun hfed => h ⟨by omega, hfed⟩
    | readAll n => exact canDeadlock_readAll hci n output ops _ le_rfl hin'
    | write =>
      have hrest : ¬ Fed ci (left' + input') ops := hsum ▸ h
      rcases Nat.lt_or_ge output co with hroom | hfull
      · apply CanReach.of_step Move.child
        rw [step_child_write hroom]
        exact ih hin' hroom hrest
      · rcases Nat.eq_zero_or_pos left' with rfl | hleft
        · obtain ⟨sent, rfl⟩ : ∃ sent, output = sent + 1 := ⟨output - 1, by omega⟩
          apply CanReach.of_step Move.father
          rw [step_father_relay]
          apply CanReach.of_step Move.child
          rw [step_child_write hout]
          exact ih hin' hout hrest
        · exact canDeadlock_write hleft (by omega) hfull ops

/-- The father writes a byte only when a read waits for it, so each read takes one. -/
theorem of_not_roomy (hci : 0 < ci) (ops : List Op) :
    ∀ {left output : ℕ}, output ≤ co → ¬ Roomy ci (co - output) left ops →
      CanDeadlock ci co (both left 0 output ops) := by
  induction ops with
  | nil =>
    intro left output _ h
    rw [Roomy] at h
    exact absurd trivial h
  | cons op ops ih =>
    intro left output hout h
    cases op with
    | read n =>
      cases left with
      | zero => exact canDeadlock_read output n ops
      | succ left =>
        apply CanReach.of_step Move.father
        rw [step_father_write hci]
        apply CanReach.of_step Move.child
        rw [step_child_read Nat.one_pos, show 0 + 1 - min (n + 1) (0 + 1) = 0 by omega]
        rw [Roomy] at h
        exact ih hout h
    | readAll n =>
      rw [Roomy] at h
      exact absurd trivial h
    | write =>
      rcases Nat.lt_or_ge output co with hroom | hfull
      · apply CanReach.of_step Move.child
        rw [step_child_write hroom]
        apply ih hroom
        rw [show co - output = co - (output + 1) + 1 by omega] at h
        exact h
      · rw [show co - output = 0 by omega] at h
        have htoo : ci < left := Nat.lt_of_not_le h
        apply of_filled left (Nat.zero_le ci)
        intro left' input' hsum hin' hfilled
        exact canDeadlock_write (by omega) (by omega) hfull ops

end Reach

/-! ## The exchange -/

theorem start_of_not_declined {method : Bytes} {contentLength : ℤ}
    (h : ¬ Declined method contentLength) (query : Bytes) (program : List Op) :
    start method query contentLength program =
      both (bodyLength method contentLength) 0 0 (childOps method query contentLength program) :=
  if_neg h

/-- **No circular wait.** No interleaving of father and child reaches a state in which each
waits for the other exactly when no child is started, or each read of the program finds a
byte of the body, nothing reads to the end, and when `cgi_output` is full and the child
writes on, no more of the body is left than fits in `cgi_input`. -/
theorem never_deadlocks_iff (ci co : ℕ) (hci : 0 < ci) (hco : 0 < co) (method query : Bytes)
    (contentLength : ℤ) (program : List Op) :
    NeverDeadlocks ci co (start method query contentLength program) ↔
      Declined method contentLength ∨
        Fed ci (bodyLength method contentLength)
            (childOps method query contentLength program) ∧
          Roomy ci co (bodyLength method contentLength)
            (childOps method query contentLength program) := by
  by_cases hdeclined : Declined method contentLength
  · refine iff_of_true ?_ (Or.inl hdeclined)
    intro moves
    have hexited : (start method query contentLength program).child = none := by
      rw [start, if_pos hdeclined]
    exact (inv_foldl (Inv ci co) inv_step moves (Or.inl hexited)).not_deadlock hci hco
  · rw [start_of_not_declined hdeclined, or_iff_right hdeclined]
    constructor
    · intro h
      have hnot : ¬ CanDeadlock ci co (both (bodyLength method contentLength) 0 0
          (childOps method query contentLength program)) :=
        fun ⟨moves, hdeadlock⟩ => h moves hdeadlock
      constructor
      · by_contra hfed
        exact hnot (of_not_fed hci hco _ ci.zero_le co.zero_le hfed)
      · by_contra hroomy
        exact hnot (of_not_roomy hci _ co.zero_le hroomy)
    · intro ⟨hfed, hroomy⟩ moves
      have hgoing : Going ci co (bodyLength method contentLength) 0 0
          (childOps method query contentLength program) :=
        ⟨ci.zero_le, co.zero_le, hfed, fun _ => hroomy⟩
      exact (inv_foldl (Inv ci co) inv_step moves hgoing.inv).not_deadlock hci hco

/-- A program that reads as many bytes as `Content-Length` says. -/
theorem never_deadlocks_iff_example :
    NeverDeadlocks 4096 4096 (start (bytes "POST") [] 3 [.read 0, .read 0, .read 0, .write]) :=
  (never_deadlocks_iff 4096 4096 (by decide) (by decide) (bytes "POST") [] 3
    [.read 0, .read 0, .read 0, .write]).mpr (by decide +kernel)

/-- A program that reads the body to the end and answers. -/
theorem reads_to_the_end :
    ¬ NeverDeadlocks 4096 4096 (start (bytes "POST") [] 3 [.readAll 1023, .write]) := by
  intro h
  rw [start_of_not_declined (by decide)] at h
  have hfed : ¬ Fed 4096 (bodyLength (bytes "POST") 3 + 0)
      (childOps (bytes "POST") [] 3 [.readAll 1023, .write]) := by decide +kernel
  have hrun : CanDeadlock 4096 4096 (both (bodyLength (bytes "POST") 3) 0 0
      (childOps (bytes "POST") [] 3 [.readAll 1023, .write])) :=
    of_not_fed (by decide) (by decide) _ (Nat.zero_le _) (Nat.zero_le _) hfed
  obtain ⟨moves, hdeadlock⟩ := hrun
  exact h moves hdeadlock

end FacePerception.Server.Pipes
