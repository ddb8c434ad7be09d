import FacePerception.Server.Overlaps

/-!
# How many descriptors connections that overlap need

Of the runs of `Overlaps` those with at most `c` connections at once and at most `k` requests
for files. A connection has up to five descriptors, two when it asks for a file; each file
leaves one behind; and `main` holds one while it waits in `accept`.

Results:
* `descriptors_suffice_iff`: when every call gets its descriptor.
* `files_end_iff`: when requests for files can end the server.
-/

namespace FacePerception.Server.Overlaps

open CString Proc FdTable Relation

/-! ## What the connections have -/

/-- The descriptors that a connection has at most, without the one that is never closed. -/
def Asks.most : Asks → ℕ
  | .nothing => 1
  | .file => 2
  | .program => 5

def Job.isBusy (j : Job) : Bool := !j.held.isEmpty

def Request.asksFile (r : Request) : Bool := r.asks = .file

/-- How many connections there are at the moment. -/
def State.busy (s : State) : ℕ := s.jobs.countP Job.isBusy

/-- How many connections have asked for a file. -/
def State.files (s : State) : ℕ := s.jobs.countP fun j => j.asksFile

/-- At most `c` connections at once, at most `k` requests for files, and check-ins only where
`programs` says so. -/
def Allowed (c k : ℕ) (programs : Bool) (s : State) : Move → Prop
  | .main => True
  | .connect r => s.busy < c ∧ s.files + r.asksFile.toNat ≤ k ∧ (r.asks = .program → programs)
  | .turn _ => True

/-- `send_header` has got no descriptor for its `open`, and has not sent the file. -/
def Job.Unsent (j : Job) : Prop := j.asks = .file ∧ ∃ todo, j.stage = .closing todo none

/-- A call has got no descriptor. -/
def State.Short (s : State) : Prop := s.stopped ≠ none ∨ ∃ j ∈ s.jobs, j.Unsent

/-- What a connection has open is what it can have open. -/
def Job.Sized (j : Job) : Prop :=
  j.leaks.length ≤ j.asksFile.toNat ∧ j.held.length ≤ j.asks.most

/-- What holds of the connections in every state of a run. -/
structure Counted (c k : ℕ) (programs : Bool) (s : State) : Prop where
  busy : s.busy ≤ c
  files : s.files ≤ k
  programs : ∀ j ∈ s.jobs, j.asks = .program → programs
  sized : ∀ j ∈ s.jobs, j.Sized

theorem asks_turn {t t' : FdTable} {j j' : Job} {stop : Option Stop}
    (hturns : Turns t j (t', j', stop)) : j'.asks = j.asks := by
  cases hturns <;> rfl

theorem isBusy_turn {t t' : FdTable} {j j' : Job} {stop : Option Stop}
    (hturns : Turns t j (t', j', stop)) (h : j'.isBusy) : j.isBusy := by
  cases hturns with
  | done hstage => exact h
  | _ hstage => simp [Job.isBusy, Job.held, hstage]

theorem sized_turn {t t' : FdTable} {j j' : Job} {stop : Option Stop} (hfollows : j.Follows)
    (h : j.Sized) (hturns : Turns t j (t', j', stop)) : j'.Sized := by
  unfold Job.Sized Job.leaks Job.held at h
  unfold Job.Follows at hfollows
  cases hturns with
  | nothing hstage hasks =>
    exact ⟨Nat.zero_le _, by simp [Job.held, hasks, Asks.most]⟩
  | fopen hstage hasks hfile =>
    exact ⟨Nat.zero_le _, by simp [Job.held, Job.got, Request.answered, hasks, Asks.most]⟩
  | noFile hstage hasks hnone | noInput hstage hasks hnone | noOutput hstage hnone => exact h
  | input hstage hasks hinput =>
    exact ⟨Nat.zero_le _, by simp [Job.held, Job.got, Request.answered, hasks, Asks.most]⟩
  | openFile hstage =>
    rw [hstage] at hfollows
    have hasks : j.asksFile.toNat = 1 := by simp [Request.asksFile, hfollows.1]
    refine ⟨?_, by simp [Job.held, Job.got, Request.answered, hfollows.1, Asks.most]⟩
    change t.lowest.toList.length ≤ j.asksFile.toNat
    rw [hasks]
    exact Option.length_toList_le
  | @output client input output hstage houtput =>
    rw [hstage] at hfollows
    exact ⟨Nat.zero_le _, by simp [Job.held, Job.got, Request.answered, hfollows.1, Asks.most]⟩
  | @close fd todo leaked hstage =>
    rw [hstage] at h
    exact ⟨h.1, (Nat.le_succ _).trans h.2⟩
  | done hstage => exact h

theorem countP_cons_toNat (q : Job → Bool) (j : Job) (jobs : List Job) :
    (j :: jobs).countP q = jobs.countP q + (q j).toNat := by
  rw [List.countP_cons]
  cases q j <;> rfl

theorem countP_append_toNat (q : Job → Bool) (jobs : List Job) (j : Job) :
    (jobs ++ [j]).countP q = jobs.countP q + (q j).toNat := by
  rw [List.countP_append, countP_cons_toNat, List.countP_nil, Nat.zero_add]

theorem length_fds_le {b : ℕ} {jobs : List Job} (hsized : ∀ j ∈ jobs, j.Sized)
    (hmost : ∀ j ∈ jobs, j.asks.most ≤ b) :
    (jobs.flatMap Job.fds).length ≤
      b * jobs.countP Job.isBusy + jobs.countP fun j => j.asksFile := by
  induction jobs with
  | nil => exact Nat.zero_le _
  | cons j jobs ih =>
    rw [List.forall_mem_cons] at hsized hmost
    have hjobs := ih hsized.2 hmost.2
    obtain ⟨hleaks, hheld⟩ := hsized.1
    have hle := hmost.1
    rw [List.flatMap_cons, List.length_append, Job.fds, List.length_append, countP_cons_toNat,
      countP_cons_toNat, Nat.mul_add]
    cases hbusy : j.isBusy with
    | true =>
      rw [Bool.toNat_true]
      omega
    | false =>
      have hnil : j.held = [] := by simpa [Job.isBusy] using hbusy
      rw [hnil, List.length_nil, Bool.toNat_false]
      omega

theorem counted_steps {c k : ℕ} {programs : Bool} {s s' : State} {m : Move}
    (h : Counted c k programs s) (hfollows : ∀ j ∈ s.jobs, j.Follows)
    (hallowed : Allowed c k programs s m) (hsteps : Steps s m s') : Counted c k programs s' := by
  cases hsteps with
  | idle => exact h
  | refused hrun hwaits hnone | waits hrun hwaits hfd =>
    exact ⟨h.busy, h.files, h.programs, h.sized⟩
  | @accepted r client hrun hwaits =>
    obtain ⟨hbusy, hfiles, hprograms⟩ := hallowed
    have hsized : Job.Sized ⟨r.answered (.client client), [], .reading client⟩ := by
      refine ⟨Nat.zero_le _, ?_⟩
      change 1 ≤ r.asks.most
      cases r.asks <;> decide
    refine ⟨?_, ?_, ?_, ?_⟩
    · rw [State.busy, countP_append_toNat]
      exact hbusy
    · rw [State.files, countP_append_toNat]
      exact hfiles
    · intro j hj
      rcases List.mem_append.mp hj with hj | hj
      · exact h.programs j hj
      · rw [List.mem_singleton.mp hj]
        exact hprograms
    · intro j hj
      rcases List.mem_append.mp hj with hj | hj
      · exact h.sized j hj
      · rw [List.mem_singleton.mp hj]
        exact hsized
  | @turn i j j' others t' stop hrun hjobs hturns hjobs' =>
    have hasks := asks_turn hturns
    have hj : j ∈ s.jobs := hjobs.mem_iff.mpr List.mem_cons_self
    have hmem : ∀ {j'' : Job}, j'' ∈ s.jobs.set i j' → j'' = j' ∨ j'' ∈ s.jobs := by
      intro j'' hj''
      rw [hjobs'.mem_iff, List.mem_cons] at hj''
      exact hj''.imp id fun hothers => hjobs.mem_iff.mpr (List.mem_cons_of_mem _ hothers)
    refine ⟨?_, ?_, ?_, ?_⟩
    · refine le_trans ?_ h.busy
      rw [State.busy, State.busy, hjobs.countP_eq, hjobs'.countP_eq, countP_cons_toNat,
        countP_cons_toNat]
      exact Nat.add_le_add_left (Bool.toNat_le_toNat (isBusy_turn hturns)) _
    · refine le_trans (le_of_eq ?_) h.files
      rw [State.files, State.files, hjobs.countP_eq, hjobs'.countP_eq, countP_cons_toNat,
        countP_cons_toNat, Request.asksFile, Request.asksFile, hasks]
    · intro j'' hj''
      rcases hmem hj'' with rfl | hj''
      · rw [hasks]
        exact h.programs j hj
      · exact h.programs j'' hj''
    · intro j'' hj''
      rcases hmem hj'' with rfl | hj''
      · exact sized_turn (hfollows j hj) (h.sized j hj) hturns
      · exact h.sized j'' hj''

theorem counted_run {c k : ℕ} {programs : Bool} {t : FdTable} {s : State}
    (h : Run (Allowed c k programs) (start t) s) : Counted c k programs s := by
  induction h with
  | refl => exact ⟨Nat.zero_le _, Nat.zero_le _, by simp [start], by simp [start]⟩
  | tail hrun hnext ih =>
    obtain ⟨m, hallowed, rfl⟩ := hnext
    exact counted_steps ih (inv_run (inv_start t) hrun).follows hallowed (steps_step _ m)

section Room

variable {b c k n : ℕ} {programs : Bool} {s : State} (hinv : Inv n s)
  (hcounted : Counted c k programs s) (hmost : ∀ j ∈ s.jobs, j.asks.most ≤ b)

include hinv hcounted hmost

/-- What is free when `main` calls `accept`. -/
theorem room_main (hwaits : s.waiting = none) : n ≤ s.table.free + b * c + k := by
  have hle := length_fds_le hcounted.sized hmost
  have hfree := hinv.holds.free
  have hfiles := hcounted.files
  have hmul : b * s.busy ≤ b * c := Nat.mul_le_mul_left b hcounted.busy
  rw [State.fds, hwaits, Option.toList_none, List.nil_append] at hfree
  rw [State.files] at hfiles
  rw [State.busy] at hmul
  omega

/-- What is free for the next call of a thread. -/
theorem room_turn {j : Job} {others : List Job} (hjobs : s.jobs.Perm (j :: others))
    (hbusy : j.isBusy) :
    n + b + j.asksFile.toNat ≤ s.table.free + j.fds.length + b * c + k + 1 := by
  have hmem : ∀ j' ∈ others, j' ∈ s.jobs := fun j' hj' =>
    hjobs.mem_iff.mpr (List.mem_cons_of_mem _ hj')
  have hle := length_fds_le (fun j' hj' => hcounted.sized j' (hmem j' hj'))
    fun j' hj' => hmost j' (hmem j' hj')
  have hfree := hinv.holds.free
  have hwaiting : s.waiting.toList.length ≤ 1 := Option.length_toList_le
  rw [State.fds, List.length_append, (hjobs.flatMap_right Job.fds).length_eq, List.flatMap_cons,
    List.length_append] at hfree
  have hfiles := hcounted.files
  rw [State.files, hjobs.countP_eq, countP_cons_toNat] at hfiles
  have hbusy' := hcounted.busy
  rw [State.busy, hjobs.countP_eq, countP_cons_toNat, hbusy, Bool.toNat_true] at hbusy'
  have hmul := Nat.mul_le_mul_left b hbusy'
  rw [Nat.mul_add, Nat.mul_one] at hmul
  omega

end Room

/-- With five descriptors for its connection, and one for its file, no call of a thread
fails. -/
theorem enough_turn {t t' : FdTable} {j j' : Job} {stop : Option Stop} (hfollows : j.Follows)
    (hunsent : ¬ j.Unsent) (hroom : j.isBusy → 5 + j.asksFile.toNat ≤ t.free + j.fds.length)
    (hturns : Turns t j (t', j', stop)) : stop = none ∧ ¬ j'.Unsent := by
  unfold Job.Follows at hfollows
  unfold Job.isBusy Job.fds Job.leaks Job.held at hroom
  unfold Job.Unsent at hunsent ⊢
  cases hturns with
  | nothing hstage hasks =>
    refine ⟨rfl, fun hfile => ?_⟩
    rw [hasks] at hfile
    cases hfile.1
  | fopen hstage hasks hfile => exact ⟨rfl, by simp [Job.got]⟩
  | noFile hstage hasks hnone =>
    rw [hstage] at hroom
    have hle := hroom rfl
    exact absurd hnone (not_lowest_none (by simp at hle; omega))
  | input hstage hasks hinput => exact ⟨rfl, by simp [Job.got]⟩
  | noInput hstage hasks hnone =>
    rw [hstage] at hroom
    have hle := hroom rfl
    exact absurd hnone (not_lowestTwo_none (by simp at hle; omega))
  | openFile hstage =>
    rw [hstage] at hroom
    have hle := hroom rfl
    have hsome := not_lowest_none (t := t) (by simp at hle; omega)
    exact ⟨rfl, by simp [Job.got, hsome]⟩
  | output hstage houtput =>
    rw [hstage] at hfollows
    refine ⟨rfl, fun hfile => ?_⟩
    have hasks : j.asks = .file := hfile.1
    rw [hfollows.1] at hasks
    cases hasks
  | noOutput hstage hnone =>
    rw [hstage] at hroom
    have hle := hroom rfl
    exact absurd hnone (not_lowestTwo_none (by simp at hle; omega))
  | @close fd todo leaked hstage =>
    refine ⟨rfl, fun hfile => hunsent ⟨hfile.1, fd :: todo, ?_⟩⟩
    obtain ⟨todo', htodo⟩ := hfile.2
    obtain ⟨-, rfl⟩ : todo = todo' ∧ leaked = none := by simpa using htodo
    exact hstage
  | done hstage => exact ⟨rfl, hunsent⟩

/-- As long as no call has failed, none fails in the next step, if there are enough
descriptors. -/
theorem not_short_steps {c k n : ℕ} {s s' : State} {m : Move} (hinv : Inv n s)
    (hcounted : Counted c k true s) (hle : k + 5 * c + 1 ≤ n) (h : ¬ s.Short)
    (hsteps : Steps s m s') : ¬ s'.Short := by
  have hmost : ∀ j ∈ s.jobs, j.asks.most ≤ 5 := by
    intro j _
    cases j.asks <;> decide
  cases hsteps with
  | idle => exact h
  | refused hrun hwaits hnone =>
    have hroom := room_main hinv hcounted hmost hwaits
    exact absurd hnone (not_lowest_none (by omega))
  | waits hrun hwaits hfd => exact h
  | @accepted r client hrun hwaits =>
    rintro (hstop | ⟨j, hj, hunsent⟩)
    · exact hstop hrun
    · rcases List.mem_append.mp hj with hj | hj
      · exact h (Or.inr ⟨j, hj, hunsent⟩)
      · obtain ⟨-, todo, hstage⟩ := hunsent
        rw [List.mem_singleton.mp hj] at hstage
        cases hstage
  | @turn i j j' others t' stop hrun hjobs hturns hjobs' =>
    have hj : j ∈ s.jobs := hjobs.mem_iff.mpr List.mem_cons_self
    have hroom : j.isBusy → 5 + j.asksFile.toNat ≤ s.table.free + j.fds.length := by
      intro hbusy
      have hroom := room_turn hinv hcounted hmost hjobs hbusy
      omega
    obtain ⟨rfl, hunsent⟩ := enough_turn (hinv.follows j hj)
      (fun hunsent => h (Or.inr ⟨j, hj, hunsent⟩)) hroom hturns
    rintro (hstop | ⟨j'', hj'', hunsent'⟩)
    · exact hstop rfl
    · rw [hjobs'.mem_iff, List.mem_cons] at hj''
      rcases hj'' with rfl | hj''
      · exact hunsent hunsent'
      · exact h (Or.inr ⟨j'', hjobs.mem_iff.mpr (List.mem_cons_of_mem _ hj''), hunsent'⟩)

theorem not_short_of_le {c k : ℕ} {t : FdTable} {s : State} (hle : k + 5 * c + 1 ≤ t.free)
    (h : Run (Allowed c k true) (start t) s) : ¬ s.Short := by
  induction h with
  | refl => simp [State.Short, start]
  | tail hrun hnext ih =>
    obtain ⟨m, hallowed, rfl⟩ := hnext
    exact not_short_steps (inv_run (inv_start t) hrun) (counted_run hrun) hle ih (steps_step _ m)

/-! ## The runs that need the most -/

section Runs

variable {c k : ℕ} {p : Bool} {t : FdTable} {l : List Job} {client : ℕ}

theorem next_connect {r : Request}
    (hallowed : Allowed c k p ⟨t, some client, l, none⟩ (.connect r)) :
    Next (Allowed c k p) ⟨t, some client, l, none⟩
      ⟨t, none, l ++ [⟨r.answered (.client client), [], .reading client⟩], none⟩ :=
  ⟨.connect r, hallowed, by simp [step, State.connect]⟩

theorem next_main {fd : ℕ} (hfd : t.lowest = some fd) :
    Next (Allowed c k p) ⟨t, none, l, none⟩ ⟨t.take fd, some fd, l, none⟩ :=
  ⟨.main, trivial, by simp [step, State.main, hfd]⟩

theorem next_refused (hnone : t.lowest = none) :
    Next (Allowed c k p) ⟨t, none, l, none⟩ ⟨t, none, l, some .accept⟩ :=
  ⟨.main, trivial, by simp [step, State.main, hnone]⟩

/-- The thread that has come last moves. -/
theorem next_last (waiting : Option ℕ) (j : Job) :
    Next (Allowed c k p) ⟨t, waiting, l ++ [j], none⟩
      ⟨(j.turn t).1, waiting, l ++ [(j.turn t).2.1], (j.turn t).2.2⟩ :=
  ⟨.turn l.length, trivial, by simp [step, State.turn]⟩

/-- With two free descriptors at most a request for a file leaves none for the next call of
`accept`, or gets none itself. -/
theorem file_stops
    (hallowed : Allowed c k p ⟨t, some client, l, none⟩ (.connect fileRequest))
    (hfree : t.free < 3) :
    ∃ s, Run (Allowed c k p) ⟨t, some client, l, none⟩ s ∧ s.stopped ≠ none := by
  have hasks : (fileRequest.answered (.client client)).asks = .file := rfl
  have hread := next_last (c := c) (k := k) (p := p) (t := t) (l := l) none
    ⟨fileRequest.answered (.client client), [], .reading client⟩
  by_cases hzero : t.free = 0
  · refine ⟨_, .head (next_connect hallowed) (.single hread), ?_⟩
    simp [Job.turn, hasks, lowest_eq_none hzero]
  · obtain ⟨file, hfile, hone⟩ := exists_lowest (t := t) (by omega)
    have hnone : (t.take file).takeLowest.lowest = none :=
      lowest_eq_none (by rw [free_takeLowest]; omega)
    simp only [Job.turn, hasks, hfile] at hread
    exact ⟨_, .head (next_connect hallowed) (.head hread (.head (next_last _ _)
      (.single (next_refused hnone)))), by simp⟩

/-- A request for a file, up to the end of `send_header`, with `main` in `accept` again. -/
theorem file_sends
    (hallowed : Allowed c k p ⟨t, some client, l, none⟩ (.connect fileRequest))
    (hfree : 3 ≤ t.free) :
    ∃ t' next j file leaked,
      Run (Allowed c k p) ⟨t, some client, l, none⟩ ⟨t', some next, l ++ [j], none⟩ ∧
        j.asks = .file ∧ j.stage = .closing [file, client] leaked ∧ t'.free + 3 = t.free := by
  obtain ⟨next, hnext, hone⟩ := exists_lowest (t := t) (by omega)
  obtain ⟨file, hfile, htwo⟩ := exists_lowest (t := t.take next) (by omega)
  have hasks : (fileRequest.answered (.client client)).asks = .file := rfl
  have hthree := ((t.take next).take file).free_takeLowest
  have hopened := next_last (c := c) (k := k) (p := p) (t := t.take next) (l := l) (some next)
    ⟨fileRequest.answered (.client client), [], .reading client⟩
  simp only [Job.turn, hasks, hfile] at hopened
  refine ⟨_, next, _, file, ((t.take next).take file).lowest,
    .head (next_connect hallowed) (.head (next_main hnext) (.head hopened
      (.single (next_last _ _)))), hasks, rfl, ?_⟩
  change ((t.take next).take file).takeLowest.free + 3 = t.free
  omega

/-- With four free descriptors at most a check-in leaves none for the next call of `accept`,
or gets no pipe. -/
theorem program_stops
    (hallowed : Allowed c k p ⟨t, some client, l, none⟩ (.connect checkInRequest))
    (hfree : t.free < 5) :
    ∃ s, Run (Allowed c k p) ⟨t, some client, l, none⟩ s ∧ s.stopped ≠ none := by
  have hasks : (checkInRequest.answered (.client client)).asks = .program := rfl
  have hread := next_last (c := c) (k := k) (p := p) (t := t) (l := l) none
    ⟨checkInRequest.answered (.client client), [], .reading client⟩
  by_cases htwo : t.free < 2
  · refine ⟨_, .head (next_connect hallowed) (.single hread), ?_⟩
    simp [Job.turn, hasks, lowestTwo_eq_none htwo]
  · obtain ⟨input, hinput, hin⟩ := exists_lowestTwo (t := t) (by omega)
    simp only [Job.turn, hasks, hinput] at hread
    have hpiped := next_last (c := c) (k := k) (p := p) (t := t.takeLowest.takeLowest) (l := l)
      none (Job.got ⟨checkInRequest.answered (.client client), [], .reading client⟩
        (.input (some input)) (.piped client input))
    by_cases hfour : t.free < 4
    · refine ⟨_, .head (next_connect hallowed) (.head hread (.single hpiped)), ?_⟩
      have hnone : t.takeLowest.takeLowest.lowestTwo = none := lowestTwo_eq_none (by omega)
      simp [Job.turn, Job.got, hnone]
    · obtain ⟨output, houtput, hout⟩ :=
        exists_lowestTwo (t := t.takeLowest.takeLowest) (by omega)
      rw [Job.got] at hread hpiped
      simp only [Job.turn, houtput] at hpiped
      exact ⟨_, .head (next_connect hallowed) (.head hread (.head hpiped
        (.single (next_refused (lowest_eq_none (by omega)))))), by simp⟩

/-- A check-in, up to the end of its second `pipe`, with `main` in `accept` again. -/
theorem program_runs
    (hallowed : Allowed c k p ⟨t, some client, l, none⟩ (.connect checkInRequest))
    (hfree : 5 ≤ t.free) :
    ∃ t' next j,
      Run (Allowed c k p) ⟨t, some client, l, none⟩ ⟨t', some next, l ++ [j], none⟩ ∧
        j.asks = .program ∧ j.isBusy ∧ t'.free + 5 = t.free := by
  obtain ⟨next, hnext, hone⟩ := exists_lowest (t := t) (by omega)
  obtain ⟨input, hinput, hthree⟩ := exists_lowestTwo (t := t.take next) (by omega)
  obtain ⟨output, houtput, hfive⟩ :=
    exists_lowestTwo (t := (t.take next).takeLowest.takeLowest) (by omega)
  have hasks : (checkInRequest.answered (.client client)).asks = .program := rfl
  have hread := next_last (c := c) (k := k) (p := p) (t := t.take next) (l := l) (some next)
    ⟨checkInRequest.answered (.client client), [], .reading client⟩
  simp only [Job.turn, hasks, hinput] at hread
  have hpiped := next_last (c := c) (k := k) (p := p)
    (t := (t.take next).takeLowest.takeLowest) (l := l) (some next)
    (Job.got ⟨checkInRequest.answered (.client client), [], .reading client⟩
      (.input (some input)) (.piped client input))
  rw [Job.got] at hread hpiped
  simp only [Job.turn, houtput] at hpiped
  exact ⟨_, next, _, .head (next_connect hallowed) (.head (next_main hnext) (.head hread
    (.single hpiped))), hasks, rfl, by omega⟩

/-- A state of a run that has `n` descriptors to give, with `main` in `accept`. -/
structure Stands (n busy files free : ℕ) (s : State) : Prop where
  inv : Inv n s
  running : s.stopped = none
  waits : s.waiting.isSome
  busy : s.busy = busy
  files : s.files = files
  free : s.table.free = free

variable {n b f m : ℕ} {s : State}

theorem Stands.eq (h : Stands n b f m s) :
    ∃ t client l, s = ⟨t, some client, l, none⟩ ∧ t.free = m := by
  obtain ⟨client, hwaits⟩ := Option.isSome_iff_exists.mp h.waits
  obtain ⟨t, waiting, l, stopped⟩ := s
  obtain rfl : waiting = some client := hwaits
  obtain rfl : stopped = none := h.running
  exact ⟨t, client, l, rfl, h.free⟩

/-- A connection more. -/
theorem Stands.append {next : ℕ} {t' : FdTable} {j : Job}
    (h : Stands n b f m ⟨t, some client, l, none⟩)
    (hrun : Run (Allowed c k p) ⟨t, some client, l, none⟩ ⟨t', some next, l ++ [j], none⟩) :
    Stands n (b + j.isBusy.toNat) (f + j.asksFile.toNat) t'.free
      ⟨t', some next, l ++ [j], none⟩ := by
  refine ⟨inv_run h.inv hrun, rfl, rfl, ?_, ?_, rfl⟩
  · have hbusy : l.countP Job.isBusy = b := h.busy
    rw [State.busy, countP_append_toNat, hbusy]
  · have hfiles : (l.countP fun j => j.asksFile) = f := h.files
    rw [State.files, countP_append_toNat, hfiles]

theorem allowed_file (h : Stands n b f m s) (hb : b < c) (hf : f < k) :
    Allowed c k p s (.connect fileRequest) :=
  ⟨h.busy ▸ hb, h.files ▸ hf, by rintro ⟨⟩⟩

theorem stands_stops (h : Stands n b f m s) (hb : b < c) (hf : f < k) (hm : m < 3) :
    ∃ s', Run (Allowed c k p) s s' ∧ s'.stopped ≠ none := by
  obtain ⟨t, client, l, rfl, hfree⟩ := h.eq
  exact file_stops (allowed_file h hb hf) (by omega)

/-- A connection more that has got its file. -/
theorem stands_sends (h : Stands n b f m s) (hb : b < c) (hf : f < k) (hm : 3 ≤ m) :
    ∃ s', Run (Allowed c k p) s s' ∧ Stands n (b + 1) (f + 1) (m - 3) s' := by
  obtain ⟨t, client, l, rfl, hfree⟩ := h.eq
  obtain ⟨t', next, j, file, leaked, hrun, hasks, hstage, hfree'⟩ :=
    file_sends (allowed_file (p := p) h hb hf) (by omega)
  have hbusy : j.isBusy = true := by simp [Job.isBusy, Job.held, hstage]
  have hfile : j.asksFile = true := by simp [Request.asksFile, hasks]
  have hstands := h.append hrun
  rw [hbusy, hfile, show t'.free = m - 3 by omega] at hstands
  exact ⟨_, hrun, hstands⟩

/-- The thread that has come last closes something. -/
theorem close_last {waiting : Option ℕ} {j : Job} {fd : ℕ} {todo : List ℕ} {leaked : Option ℕ}
    (hinv : Inv n ⟨t, waiting, l ++ [j], none⟩) (hstage : j.stage = .closing (fd :: todo) leaked) :
    ∃ j', Next (Allowed c k p) ⟨t, waiting, l ++ [j], none⟩
        ⟨t.release fd, waiting, l ++ [j'], none⟩ ∧ j'.asks = j.asks ∧
      j'.stage = .closing todo leaked ∧ (t.release fd).free = t.free + 1 := by
  have hnext := next_last (c := c) (k := k) (p := p) (t := t) (l := l) waiting j
  simp only [Job.turn, hstage] at hnext
  refine ⟨_, hnext, rfl, rfl, free_release (hinv.holds.used fd ?_)⟩
  rw [State.fds, List.flatMap_append]
  simp [Job.fds, Job.held, hstage]

/-- A connection more that has got its file and is closed. -/
theorem stands_answers (h : Stands n b f m s) (hb : b < c) (hf : f < k) (hm : 3 ≤ m) :
    ∃ s', Run (Allowed c k p) s s' ∧ Stands n b (f + 1) (m - 1) s' := by
  obtain ⟨t, client, l, rfl, hfree⟩ := h.eq
  obtain ⟨t₁, next, j₁, file, leaked, hrun, hasks₁, hstage₁, hfree₁⟩ :=
    file_sends (allowed_file (p := p) h hb hf) (by omega)
  obtain ⟨j₂, hnext₂, hasks₂, hstage₂, hfree₂⟩ :=
    close_last (c := c) (k := k) (p := p) (inv_run h.inv hrun) hstage₁
  have hrun₂ := hrun.tail hnext₂
  obtain ⟨j₃, hnext₃, hasks₃, hstage₃, hfree₃⟩ :=
    close_last (c := c) (k := k) (p := p) (inv_run h.inv hrun₂) hstage₂
  have hrun₃ := hrun₂.tail hnext₃
  have hasks : j₃.asks = .file := hasks₃.trans (hasks₂.trans hasks₁)
  have hbusy : j₃.isBusy = false := by simp [Job.isBusy, Job.held, hstage₃]
  have hfile : j₃.asksFile = true := by simp [Request.asksFile, hasks]
  have hstands := h.append hrun₃
  rw [hbusy, hfile, show ((t₁.release file).release client).free = m - 1 by omega] at hstands
  exact ⟨_, hrun₃, hstands⟩

/-- A check-in more that has got its pipes, or a call that fails. -/
theorem stands_checks (h : Stands n b f m s) (hb : b < c) (hf : f ≤ k) :
    (∃ s', Run (Allowed c k true) s s' ∧ s'.stopped ≠ none) ∨
      5 ≤ m ∧ ∃ s', Run (Allowed c k true) s s' ∧ Stands n (b + 1) f (m - 5) s' := by
  obtain ⟨t, client, l, rfl, hfree⟩ := h.eq
  have hallowed : Allowed c k true ⟨t, some client, l, none⟩ (.connect checkInRequest) :=
    ⟨h.busy ▸ hb, h.files ▸ hf, fun _ => rfl⟩
  by_cases hfive : 5 ≤ m
  · obtain ⟨t', next, j, hrun, hasks, hbusy, hfree'⟩ := program_runs hallowed (by omega)
    have hfile : j.asksFile = false := by simp [Request.asksFile, hasks]
    have hstands := h.append hrun
    rw [hbusy, hfile, show t'.free = m - 5 by omega] at hstands
    exact Or.inr ⟨hfive, _, hrun, hstands⟩
  · exact Or.inl (program_stops hallowed (by omega))

/-- `main` calls `accept` for the first time. -/
theorem start_run (t : FdTable) :
    ∃ s, Run (Allowed c k p) (start t) s ∧
      (s.stopped ≠ none ∨ ∃ m, m + 1 = t.free ∧ Stands t.free 0 0 m s) := by
  by_cases hzero : t.free = 0
  · exact ⟨_, .single (next_refused (lowest_eq_none hzero)), Or.inl (by simp)⟩
  · obtain ⟨fd, hfd, hone⟩ := exists_lowest (t := t) (by omega)
    have hnext : Next (Allowed c k p) (start t) _ := next_main hfd
    refine ⟨_, .single hnext, Or.inr ⟨(t.take fd).free, hone, ?_⟩⟩
    exact ⟨inv_run (inv_start t) (.single hnext), rfl, rfl, rfl, rfl, rfl⟩

/-- Files one after another behind it. -/
theorem files_run (t : FdTable) (hc : 0 < c) (i : ℕ) (hi : i ≤ k) :
    ∃ s, Run (Allowed c k p) (start t) s ∧
      (s.stopped ≠ none ∨ ∃ m, m + 1 + i = t.free ∧ Stands t.free 0 i m s) := by
  induction i with
  | zero => exact start_run t
  | succ i ih =>
    obtain ⟨s, hrun, hstop | ⟨m, hm, hstands⟩⟩ := ih (by omega)
    · exact ⟨s, hrun, Or.inl hstop⟩
    · by_cases hthree : m < 3
      · obtain ⟨s', hrun', hstop⟩ := stands_stops hstands hc hi hthree
        exact ⟨s', hrun.trans hrun', Or.inl hstop⟩
      · obtain ⟨s', hrun', hstands'⟩ := stands_answers hstands hc hi (by omega)
        exact ⟨s', hrun.trans hrun', Or.inr ⟨m - 1, by omega, hstands'⟩⟩

/-- Check-ins at once behind them. -/
theorem checks_run (t : FdTable) (hc : 0 < c) (i : ℕ) (hi : i ≤ c) :
    ∃ s, Run (Allowed c k true) (start t) s ∧
      (s.stopped ≠ none ∨ ∃ m, m + 1 + k + 5 * i = t.free ∧ Stands t.free i k m s) := by
  induction i with
  | zero => exact files_run t hc k le_rfl
  | succ i ih =>
    obtain ⟨s, hrun, hstop | ⟨m, hm, hstands⟩⟩ := ih (by omega)
    · exact ⟨s, hrun, Or.inl hstop⟩
    · rcases stands_checks hstands hi le_rfl with ⟨s', hrun', hstop⟩ | ⟨hfive, s', hrun', hstands'⟩
      · exact ⟨s', hrun.trans hrun', Or.inl hstop⟩
      · exact ⟨s', hrun.trans hrun', Or.inr ⟨m - 5, by omega, hstands'⟩⟩

/-- Files at once behind `k - c` of them. -/
theorem overlaps_run (t : FdTable) (hc : 0 < c) (hck : c ≤ k) (i : ℕ) (hi : i < c) :
    ∃ s, Run (Allowed c k p) (start t) s ∧
      (s.stopped ≠ none ∨
        ∃ m, m + 1 + (k - c) + 3 * i = t.free ∧ Stands t.free i (k - c + i) m s) := by
  induction i with
  | zero => exact files_run t hc (k - c) (by omega)
  | succ i ih =>
    obtain ⟨s, hrun, hstop | ⟨m, hm, hstands⟩⟩ := ih (by omega)
    · exact ⟨s, hrun, Or.inl hstop⟩
    · have hb : i < c := by omega
      have hf : k - c + i < k := by omega
      by_cases hthree : m < 3
      · obtain ⟨s', hrun', hstop⟩ := stands_stops hstands hb hf hthree
        exact ⟨s', hrun.trans hrun', Or.inl hstop⟩
      · obtain ⟨s', hrun', hstands'⟩ := stands_sends hstands hb hf (by omega)
        exact ⟨s', hrun.trans hrun', Or.inr ⟨m - 3, by omega, hstands'⟩⟩

end Runs

/-! ## When every call gets its descriptor -/

/-- **When every call gets its descriptor.** Of the runs with at most `c` connections at once
and at most `k` requests for files none has a call that fails exactly if there is a
descriptor for each of the files, there are five for each of the connections, and there is one
for `main` in `accept`. -/
theorem descriptors_suffice_iff {t : FdTable} {c k : ℕ} (hc : 0 < c) :
    (∀ s, Run (Allowed c k true) (start t) s → ¬ s.Short) ↔ k + 5 * c + 1 ≤ t.free := by
  constructor
  · intro hall
    obtain ⟨s, hrun, hstop | ⟨m, hm, -⟩⟩ := checks_run (k := k) t hc c le_rfl
    · exact absurd (Or.inl hstop) (hall s hrun)
    · omega
  · intro hle s hrun
    exact not_short_of_le hle hrun

/-- Twelve descriptors are enough for two check-ins at once and one file, and not for two
files. -/
theorem descriptors_suffice_iff_example :
    (∃ s, Run (Allowed 2 2 true) (start twelveFree) s ∧ s.Short) ∧
      ∀ s, Run (Allowed 2 1 true) (start twelveFree) s → ¬ s.Short := by
  refine ⟨?_, (descriptors_suffice_iff Nat.two_pos).mpr (by decide)⟩
  by_contra hnone
  have hall : ∀ s, Run (Allowed 2 2 true) (start twelveFree) s → ¬ s.Short :=
    fun s hrun hshort => hnone ⟨s, hrun, hshort⟩
  have hle := (descriptors_suffice_iff Nat.two_pos).mp hall
  exact absurd hle (by decide)

/-! ## Requests for files that end the server -/

/-- Without check-ins two descriptors for each connection, one for each file and one for `main`
keep the process running. -/
theorem running_steps {c k n : ℕ} {s s' : State} {m : Move} (hinv : Inv n s)
    (hcounted : Counted c k false s) (hle : k + 2 * c + 1 ≤ n) (h : s.stopped = none)
    (hsteps : Steps s m s') : s'.stopped = none := by
  have hprogram : ∀ j ∈ s.jobs, j.asks ≠ .program := by
    intro j hj hasks
    cases hcounted.programs j hj hasks
  have hmost : ∀ j ∈ s.jobs, j.asks.most ≤ 2 := by
    intro j hj
    have hne := hprogram j hj
    cases hasks : j.asks with
    | nothing => decide
    | file => decide
    | program => exact absurd hasks hne
  cases hsteps with
  | idle => exact h
  | refused hrun hwaits hnone =>
    have hroom := room_main hinv hcounted hmost hwaits
    exact absurd hnone (not_lowest_none (by omega))
  | waits hrun hwaits hfd | accepted hrun hwaits => exact hrun
  | @turn i j j' others t' stop hrun hjobs hturns hjobs' =>
    have hj : j ∈ s.jobs := hjobs.mem_iff.mpr List.mem_cons_self
    have hroom := room_turn hinv hcounted hmost hjobs
    have hfollows := hinv.follows j hj
    unfold Job.isBusy Job.fds Job.leaks Job.held at hroom
    unfold Job.Follows at hfollows
    cases hturns with
    | noFile hstage hasks hnone =>
      rw [hstage] at hroom
      have hpos := hroom rfl
      simp [Request.asksFile, hasks] at hpos
      exact absurd hnone (not_lowest_none (by omega))
    | noInput hstage hasks hnone => exact absurd hasks (hprogram j hj)
    | noOutput hstage hnone =>
      rw [hstage] at hfollows
      exact absurd hfollows.1 (hprogram j hj)
    | _ => rfl

theorem running_of_le {c k : ℕ} {t : FdTable} {s : State} (hle : k + 2 * c + 1 ≤ t.free)
    (h : Run (Allowed c k false) (start t) s) : s.stopped = none := by
  induction h with
  | refl => rfl
  | tail hrun hnext ih =>
    obtain ⟨m, hallowed, rfl⟩ := hnext
    exact running_steps (inv_run (inv_start t) hrun) (counted_run hrun) hle ih (steps_step _ m)

/-- **When requests for files can end the server.** With at most `c` connections at once and
at most `k` requests for files, and no check-in, some run ends the process, because `accept`
or `fopen` gets no descriptor, exactly if fewer than `k + 2c + 1` are free. -/
theorem files_end_iff {t : FdTable} {c k : ℕ} (hc : 0 < c) (hck : c ≤ k) :
    (∃ s, Run (Allowed c k false) (start t) s ∧ s.stopped ≠ none) ↔ t.free < k + 2 * c + 1 := by
  constructor
  · rintro ⟨s, hrun, hstop⟩
    by_contra hnot
    exact hstop (running_of_le (by omega) hrun)
  · intro hlt
    obtain ⟨s, hrun, hstop | ⟨m, hm, hstands⟩⟩ :=
      overlaps_run (p := false) t hc hck (c - 1) (by omega)
    · exact ⟨s, hrun, hstop⟩
    · obtain ⟨s', hrun', hstop⟩ :=
        stands_stops (c := c) (k := k) (p := false) hstands (by omega) (by omega) (by omega)
      exact ⟨s', hrun.trans hrun', hstop⟩

/-- Four connections at once that ask for a file each can end a server with twelve free
descriptors. -/
theorem files_end_iff_example :
    ∃ s, Run (Allowed 4 4 false) (start twelveFree) s ∧ s.stopped ≠ none :=
  (files_end_iff (by decide) le_rfl).mpr (by decide)

end FacePerception.Server.Overlaps
