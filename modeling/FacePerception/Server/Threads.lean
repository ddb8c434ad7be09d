import FacePerception.Server.Store

/-!
# `send_vector` in many threads

`main` starts a thread for every accepted connection (`server/server_http.cpp`,
lines 26–48), and all of them run `send_vector` on the one `server_class`. A step
of the model is one step of one thread: a section under the mutex, the scan of
`v` in `find_id`, or a statement outside both. `localtime` returns a pointer to
the one static `struct tm` of libc, so that is a field of the shared state.

`push_back` may move the storage of `v`; `gen` counts the moves. An iterator
remembers the storage it points into. To use one that has gone stale is undefined; in
the model what is written through it is lost, and a result that speaks of what comes
after such a use rules it out.

Results:
* `step_thread_of_ne`, `step_quiet`, `step_tm`: what a step leaves alone.
* `step_changed`: what it makes of the state the threads share.
* `step_moved`: what it makes of the thread it moves.
* `run_alone`: a thread that runs alone does what the sequential `sendVector` does.
-/

namespace FacePerception.Server

open CString CNum

/-- An iterator of `v`: the storage it points into and its position there. -/
structure Iter where
  gen : ℕ
  pos : ℕ
deriving DecidableEq

/-- What a thread does next in `send_vector`. -/
inductive Pc
  /-- `get_string` (line 547). -/
  | start
  /-- `get_time` (line 551): the locked section of lines 88–90. -/
  | named
  /-- The scan of `find_id` (lines 96–106). -/
  | timed
  /-- `size++` under the mutex (lines 107–109). -/
  | missed
  /-- `return v.end()` (line 110). -/
  | counted
  /-- The test `prev !=v.end()` (line 560). -/
  | returned
  /-- `prev->end_time=mktime(T)` (line 564). -/
  | departing
  /-- `prev->leave_time=local_time` (line 567). -/
  | stamped
  /-- The first statement of `calculat_work_time` (line 115). -/
  | leaving
  /-- A turn of its loop (lines 117–131). -/
  | carrying
  /-- The locked section of lines 594–601. -/
  | arriving
  /-- `send_vector` has nothing left to do but print. -/
  | finished
deriving DecidableEq

/-- A thread in `send_vector`: its argument and its local variables. `clock` is
what `time(NULL)` answered in its `get_time`. -/
structure Thread where
  query : Bytes
  pc : Pc
  tmp : UserNode
  clock : ℤ
  localTime : Bytes
  prev : Iter

/-- A thread that has just entered `send_vector`. -/
def Thread.enter (query : Bytes) : Thread where
  query := query
  pc := .start
  tmp := buynode [] []
  clock := 0
  localTime := []
  prev := ⟨0, 0⟩

/-- The server with the threads `ι`. `aborted`: an assertion has failed, which
ends the process. -/
structure Threads (lib : TimeLib) (ι : Type) where
  server : ServerHttp
  gen : ℕ
  tm : lib.Tm
  aborted : Bool
  thread : ι → Thread

/-- One step of a run: the thread that moves, what `time(NULL)` answers it, and
whether `push_back` moves the storage of `v`, as it does whenever that is full. -/
structure Move (ι : Type) where
  i : ι
  now : ℤ
  moved : Bool

namespace Threads

variable {lib : TimeLib} {ι : Type}

/-- The server at the start, with one thread for each query. -/
def init (lib : TimeLib) (tm : lib.Tm) (query : ι → Bytes) : Threads lib ι where
  server := ServerHttp.init
  gen := 0
  tm := tm
  aborted := false
  thread i := Thread.enter (query i)

/-- `v.end()`. -/
def vEnd (s : Threads lib ι) : Iter := ⟨s.gen, s.server.v.length⟩

/-- Change the record an iterator points to. -/
def store (s : Threads lib ι) (it : Iter) (f : UserNode → UserNode) : Threads lib ι :=
  if it.gen = s.gen then
    { s with server := { s.server with v := s.server.v.modify it.pos f } }
  else s

/-- The record an iterator points to. -/
def deref (s : Threads lib ι) (it : Iter) : Option UserNode :=
  if it.gen = s.gen then s.server.v[it.pos]? else none

/-- Thread `i` has found no record of its pair and is on its way to `push_back`. -/
def Pending (s : Threads lib ι) (i : ι) : Prop :=
  match (s.thread i).pc with
  | .missed | .counted | .arriving => True
  | .returned => (s.thread i).prev = s.vEnd
  | _ => False

instance decidablePending (s : Threads lib ι) (i : ι) : Decidable (s.Pending i) :=
  decidable_of_iff ((s.thread i).pc ∈ [.missed, .counted, .arriving] ∨
      (s.thread i).pc = .returned ∧ (s.thread i).prev = s.vEnd) (by
    unfold Pending
    cases (s.thread i).pc <;> simp)

/-- The pair thread `i` is about. -/
def keyOf (s : Threads lib ι) (i : ι) : Bytes × Bytes := (s.thread i).tmp.key

@[simp] theorem store_gen (s : Threads lib ι) (it : Iter) (f : UserNode → UserNode) :
    (s.store it f).gen = s.gen := by
  unfold store; split_ifs <;> rfl

@[simp] theorem store_tm (s : Threads lib ι) (it : Iter) (f : UserNode → UserNode) :
    (s.store it f).tm = s.tm := by
  unfold store; split_ifs <;> rfl

@[simp] theorem store_aborted (s : Threads lib ι) (it : Iter) (f : UserNode → UserNode) :
    (s.store it f).aborted = s.aborted := by
  unfold store; split_ifs <;> rfl

@[simp] theorem store_thread (s : Threads lib ι) (it : Iter) (f : UserNode → UserNode) :
    (s.store it f).thread = s.thread := by
  unfold store; split_ifs <;> rfl

/-- Writing through an iterator never changes which pairs have records. -/
theorem store_keys (s : Threads lib ι) (it : Iter) {f : UserNode → UserNode}
    (hf : ∀ r, (f r).key = r.key) :
    (s.store it f).server.v.map UserNode.key = s.server.v.map UserNode.key := by
  unfold store
  split_ifs
  · apply List.ext_getElem?
    intro n
    simp only [List.getElem?_map, List.getElem?_modify]
    cases s.server.v[n]? with
    | none => rfl
    | some r =>
      split_ifs
      · simp [hf]
      · rfl
  · rfl

theorem workTimeTurn_key (r : UserNode) : (workTimeTurn r).key = r.key := by
  simp only [workTimeTurn, carryMin, carryHour]
  split_ifs <;> rfl

variable [DecidableEq ι]

/-- Thread `i` becomes `th`. -/
def put (s : Threads lib ι) (i : ι) (th : Thread) : Threads lib ι :=
  { s with thread := Function.update s.thread i th }

/-- What thread `x.i`, standing at `th`, does in its next step. -/
def act (s : Threads lib ι) (x : Move ι) (th : Thread) : Threads lib ι :=
  match th.pc with
  | .start =>
    if strlen th.query > 0 then
      let nameId := getString th.query
      s.put x.i { th with pc := .named, tmp := buynode nameId.1 nameId.2 }
    else { s with aborted := true }
  | .named =>
    let T := lib.localtime x.now
    { s with tm := T }.put x.i
      { th with pc := .timed, clock := x.now, localTime := lib.strftime T }
  | .timed =>
    let cur := findScan th.tmp s.server.v
    if cur ≠ s.server.v.length then s.put x.i { th with pc := .returned, prev := ⟨s.gen, cur⟩ }
    else s.put x.i { th with pc := .missed }
  | .missed =>
    { s with server := { s.server with size := s.server.size + 1 } }.put x.i
      { th with pc := .counted }
  | .counted => s.put x.i { th with pc := .returned, prev := s.vEnd }
  | .returned =>
    s.put x.i { th with pc := if th.prev ≠ s.vEnd then .departing else .arriving }
  | .departing =>
    (s.store th.prev fun r => { r with endTime := lib.mktime s.tm }).put x.i
      { th with pc := .stamped }
  | .stamped =>
    (s.store th.prev fun r => { r with leaveTime := th.localTime }).put x.i
      { th with pc := .leaving }
  | .leaving =>
    (s.store th.prev fun r =>
      { r with sec := doubleToInt (r.sec + (r.endTime - r.startTime)) }).put x.i
      { th with pc := .carrying }
  | .carrying =>
    match s.deref th.prev with
    | some r =>
      if r.sec ≥ 60 then s.store th.prev workTimeTurn else s.put x.i { th with pc := .finished }
    | none => s.put x.i { th with pc := .finished }
  | .arriving =>
    { s with
      server := { s.server with v := s.server.v ++ [arrive lib s.tm th.localTime th.tmp] },
      gen := if x.moved then s.gen + 1 else s.gen }.put x.i { th with pc := .finished }
  | .finished => s

/-- One step of the server. -/
def step (s : Threads lib ι) (x : Move ι) : Threads lib ι :=
  if s.aborted then s else s.act x (s.thread x.i)

/-- The state a run reaches. -/
def run (s : Threads lib ι) (moves : List (Move ι)) : Threads lib ι := moves.foldl step s

/-! ## Projections -/

@[simp] theorem put_server (s : Threads lib ι) (i : ι) (th : Thread) :
    (s.put i th).server = s.server := rfl

@[simp] theorem put_gen (s : Threads lib ι) (i : ι) (th : Thread) :
    (s.put i th).gen = s.gen := rfl

@[simp] theorem put_tm (s : Threads lib ι) (i : ι) (th : Thread) : (s.put i th).tm = s.tm := rfl

@[simp] theorem put_aborted (s : Threads lib ι) (i : ι) (th : Thread) :
    (s.put i th).aborted = s.aborted := rfl

@[simp] theorem put_vEnd (s : Threads lib ι) (i : ι) (th : Thread) :
    (s.put i th).vEnd = s.vEnd := rfl

@[simp] theorem put_thread_self (s : Threads lib ι) (i : ι) (th : Thread) :
    (s.put i th).thread i = th := by
  simp [put]

@[simp] theorem put_put (s : Threads lib ι) (i : ι) (th th' : Thread) :
    (s.put i th).put i th' = s.put i th' := by
  simp [put]

theorem put_thread_of_ne (s : Threads lib ι) {i j : ι} (th : Thread) (h : j ≠ i) :
    (s.put i th).thread j = s.thread j := by
  simp [put, h]

/-! ## What a step can do -/

theorem step_of_aborted {s : Threads lib ι} (x : Move ι) (h : s.aborted = true) :
    s.step x = s := by
  rw [step, if_pos h]

theorem step_of_alive {s : Threads lib ι} (x : Move ι) (h : s.aborted = false) :
    s.step x = s.act x (s.thread x.i) := by
  rw [step, if_neg (by simp [h])]

/-- A step moves one thread. -/
theorem step_thread_of_ne (s : Threads lib ι) (x : Move ι) {j : ι} (hj : j ≠ x.i) :
    (s.step x).thread j = s.thread j := by
  cases hab : s.aborted with
  | true => rw [step_of_aborted x hab]
  | false =>
    rw [step_of_alive x hab]
    cases h : (s.thread x.i).pc <;> simp only [act, h]
    case start => split_ifs <;> simp [put_thread_of_ne _ _ hj]
    case timed => split_ifs <;> simp [put_thread_of_ne _ _ hj]
    case carrying =>
      split
      · split_ifs <;> simp [put_thread_of_ne _ _ hj]
      · simp [put_thread_of_ne _ _ hj]
    all_goals simp [put_thread_of_ne _ _ hj]

/-- What a step makes of the state the threads share. -/
inductive Changed (s : Threads lib ι) (x : Move ι) : ServerHttp → ℕ → lib.Tm → Prop
  | nothing : Changed s x s.server s.gen s.tm
  | time (h : (s.thread x.i).pc = .named) : Changed s x s.server s.gen (lib.localtime x.now)
  | count (h : (s.thread x.i).pc = .missed) :
    Changed s x { s.server with size := s.server.size + 1 } s.gen s.tm
  | record (it : Iter) {f : UserNode → UserNode} (hkey : ∀ r, (f r).key = r.key) :
    Changed s x (s.store it f).server s.gen s.tm
  | push (h : (s.thread x.i).pc = .arriving) (r : UserNode) (gen : ℕ) :
    Changed s x { s.server with v := s.server.v ++ [r] } gen s.tm

theorem step_changed (s : Threads lib ι) (x : Move ι) :
    Changed s x (s.step x).server (s.step x).gen (s.step x).tm := by
  cases hab : s.aborted with
  | true =>
    rw [step_of_aborted x hab]
    exact .nothing
  | false =>
    rw [step_of_alive x hab]
    cases h : (s.thread x.i).pc <;> simp only [act, h]
    case start => split_ifs <;> exact .nothing
    case named => exact .time h
    case timed => split_ifs <;> exact .nothing
    case missed => exact .count h
    case carrying =>
      split
      · split_ifs
        · rw [store_gen, store_tm]
          exact .record _ workTimeTurn_key
        · exact .nothing
      · exact .nothing
    case arriving => exact .push h _ _
    case counted => exact .nothing
    case returned => exact .nothing
    case finished => exact .nothing
    all_goals
      rw [put_server, put_gen, put_tm, store_gen, store_tm]
      exact .record _ fun _ => rfl

/-- Only the locked section of the arrival branch adds a record or moves `v`. -/
theorem step_quiet (s : Threads lib ι) (x : Move ι) (hpc : (s.thread x.i).pc ≠ .arriving) :
    (s.step x).server.v.map UserNode.key = s.server.v.map UserNode.key ∧
      (s.step x).gen = s.gen := by
  have hchanged := s.step_changed x
  generalize (s.step x).server = server, (s.step x).gen = gen, (s.step x).tm = tm at hchanged ⊢
  cases hchanged with
  | record it hkey => exact ⟨s.store_keys it hkey, rfl⟩
  | push h => exact absurd h hpc
  | _ => exact ⟨rfl, rfl⟩

theorem length_step {s : Threads lib ι} {x : Move ι} (hpc : (s.thread x.i).pc ≠ .arriving) :
    (s.step x).server.v.length = s.server.v.length := by
  simpa using congrArg List.length (s.step_quiet x hpc).1

theorem vEnd_step {s : Threads lib ι} {x : Move ι} (hpc : (s.thread x.i).pc ≠ .arriving) :
    (s.step x).vEnd = s.vEnd := by
  rw [vEnd, vEnd, (s.step_quiet x hpc).2, length_step hpc]

/-- `push_back` by thread `x.i`. -/
theorem step_push {s : Threads lib ι} {x : Move ι} (hab : s.aborted = false)
    (hpc : (s.thread x.i).pc = .arriving) :
    (s.step x).aborted = false ∧ (s.step x).server.size = s.server.size ∧
      (s.step x).server.v.map UserNode.key = s.server.v.map UserNode.key ++ [s.keyOf x.i] ∧
      ((s.step x).thread x.i).pc = .finished := by
  rw [step_of_alive x hab]
  simp [act, hpc, hab, arrive, keyOf, UserNode.key]

/-- Only `get_time` writes the static `struct tm`. -/
theorem step_tm (s : Threads lib ι) (x : Move ι) (hpc : (s.thread x.i).pc ≠ .named) :
    (s.step x).tm = s.tm := by
  have hchanged := s.step_changed x
  generalize (s.step x).server = server, (s.step x).gen = gen, (s.step x).tm = tm at hchanged ⊢
  cases hchanged with
  | time h => exact absurd h hpc
  | _ => rfl

/-- What a step makes of the thread it moves. -/
inductive Moved (s : Threads lib ι) (x : Move ι) : Thread → Thread → Prop
  /-- An assertion has failed or fails, the carry loop goes round, or there is nothing
  left to do. -/
  | stays {th : Thread} (h : s.aborted = true ∨ th.pc ∈ [.start, .carrying, .finished]) :
    Moved s x th th
  | named {th : Thread} (h : th.pc = .start) :
    Moved s x th { th with
      pc := .named, tmp := buynode (getString th.query).1 (getString th.query).2 }
  | timed {th : Thread} (h : th.pc = .named) :
    Moved s x th { th with pc := .timed, clock := x.now, localTime := lib.getTime x.now }
  | hit {th : Thread} (h : th.pc = .timed)
    (hcur : findScan th.tmp s.server.v ≠ s.server.v.length) :
    Moved s x th { th with pc := .returned, prev := ⟨s.gen, findScan th.tmp s.server.v⟩ }
  | missed {th : Thread} (h : th.pc = .timed)
    (hcur : findScan th.tmp s.server.v = s.server.v.length) :
    Moved s x th { th with pc := .missed }
  | counted {th : Thread} (h : th.pc = .missed) : Moved s x th { th with pc := .counted }
  | returned {th : Thread} (h : th.pc = .counted) :
    Moved s x th { th with pc := .returned, prev := s.vEnd }
  | departing {th : Thread} (h : th.pc = .returned) (hend : th.prev ≠ s.vEnd) :
    Moved s x th { th with pc := .departing }
  | arriving {th : Thread} (h : th.pc = .returned) (hend : th.prev = s.vEnd) :
    Moved s x th { th with pc := .arriving }
  | stamped {th : Thread} (h : th.pc = .departing) : Moved s x th { th with pc := .stamped }
  | leaving {th : Thread} (h : th.pc = .stamped) : Moved s x th { th with pc := .leaving }
  | carrying {th : Thread} (h : th.pc = .leaving) : Moved s x th { th with pc := .carrying }
  | finished {th : Thread} (h : th.pc = .carrying ∨ th.pc = .arriving) :
    Moved s x th { th with pc := .finished }

theorem step_moved (s : Threads lib ι) (x : Move ι) :
    Moved s x (s.thread x.i) ((s.step x).thread x.i) := by
  cases hab : s.aborted with
  | true =>
    rw [step_of_aborted x hab]
    exact .stays (Or.inl hab)
  | false =>
    rw [step_of_alive x hab]
    cases h : (s.thread x.i).pc <;> simp only [act, h]
    case start =>
      split_ifs
      · rw [put_thread_self]
        exact .named h
      · exact .stays (Or.inr (by simp [h]))
    case timed =>
      split_ifs with hcur
      · rw [put_thread_self]
        exact .hit h hcur
      · rw [put_thread_self]
        exact .missed h (not_not.mp hcur)
    case returned =>
      rw [put_thread_self]
      split_ifs with hend
      · exact .departing h hend
      · exact .arriving h (not_not.mp hend)
    case carrying =>
      split
      · split_ifs
        · rw [store_thread]
          exact .stays (Or.inr (by simp [h]))
        · rw [put_thread_self]
          exact .finished (Or.inl h)
      · rw [put_thread_self]
        exact .finished (Or.inl h)
    case finished => exact .stays (Or.inr (by simp [h]))
    all_goals rw [put_thread_self]
    case named => exact .timed h
    case missed => exact .counted h
    case counted => exact .returned h
    case departing => exact .stamped h
    case stamped => exact .leaving h
    case leaving => exact .carrying h
    case arriving => exact .finished (Or.inr h)

theorem step_query (s : Threads lib ι) (x : Move ι) (i : ι) :
    ((s.step x).thread i).query = (s.thread i).query := by
  by_cases hi : i = x.i
  · subst hi
    have hmoved := s.step_moved x
    generalize (s.step x).thread x.i = th' at hmoved
    cases hmoved <;> rfl
  · rw [s.step_thread_of_ne x hi]

theorem run_query (s : Threads lib ι) (moves : List (Move ι)) (i : ι) :
    ((s.run moves).thread i).query = (s.thread i).query := by
  induction moves generalizing s with
  | nil => rfl
  | cons x moves ih => exact (ih (s.step x)).trans (s.step_query x i)

/-- The moves of one thread leave the others alone. -/
theorem run_thread_of_ne (s : Threads lib ι) {moves : List (Move ι)} {i j : ι} (hj : j ≠ i)
    (h : ∀ x ∈ moves, x.i = i) : (s.run moves).thread j = s.thread j := by
  induction moves generalizing s with
  | nil => rfl
  | cons x moves ih =>
    have hx : j ≠ x.i := by rw [h x (by simp)]; exact hj
    exact (ih (s.step x) fun y hy => h y (by simp [hy])).trans (s.step_thread_of_ne x hx)

/-! ## A thread that runs alone -/

omit [DecidableEq ι] in
theorem deref_store {s : Threads lib ι} {it : Iter} {r : UserNode} (h : s.deref it = some r)
    (f : UserNode → UserNode) : (s.store it f).deref it = some (f r) := by
  unfold deref at h ⊢
  unfold store
  split_ifs at h ⊢ with hgen
  · simp [h]

omit [DecidableEq ι] in
theorem store_store (s : Threads lib ι) (it : Iter) (f g : UserNode → UserNode) :
    (s.store it f).store it g = s.store it (g ∘ f) := by
  unfold store
  split_ifs with hgen
  · simp [List.modify_modify_eq]
  · rfl

omit [DecidableEq ι] in
/-- What is written through an iterator matters only at the record it points to. -/
theorem store_congr {s : Threads lib ι} {it : Iter} {r : UserNode} (h : s.deref it = some r)
    {f g : UserNode → UserNode} (hfg : f r = g r) : s.store it f = s.store it g := by
  unfold deref at h
  unfold store
  split_ifs at h ⊢ with hgen
  · have hv : s.server.v.modify it.pos f = s.server.v.modify it.pos g := by
      apply List.ext_getElem?
      intro n
      rw [List.getElem?_modify, List.getElem?_modify]
      split_ifs with hn
      · rw [← hn, h]
        exact congrArg some hfg
      · rfl
    rw [hv]

/-- `n` steps of thread `i` alone, with the clock standing at `t`; `moved` is what its
`push_back` does. -/
def runAlone (s : Threads lib ι) (i : ι) (t : ℤ) (moved : Bool) (n : ℕ) : Threads lib ι :=
  s.run (List.replicate n ⟨i, t, moved⟩)

theorem runAlone_succ (s : Threads lib ι) (i : ι) (t : ℤ) (moved : Bool) (n : ℕ) :
    s.runAlone i t moved (n + 1) = (s.step ⟨i, t, moved⟩).runAlone i t moved n := rfl

/-- A thread in the carry loop runs it to its end. -/
theorem run_carrying {s : Threads lib ι} {i : ι} (hab : s.aborted = false)
    (hpc : (s.thread i).pc = .carrying) {r : UserNode}
    (hr : s.deref (s.thread i).prev = some r) (t : ℤ) (moved : Bool) :
    ∃ n, ((s.runAlone i t moved n).thread i).pc = .finished ∧
      (s.runAlone i t moved n).server = (s.store (s.thread i).prev workTimeLoop).server := by
  induction r using workTimeLoop.induct generalizing s with
  | case1 r hsec ih =>
    have hstep : s.step ⟨i, t, moved⟩ = s.store (s.thread i).prev workTimeTurn := by
      rw [step_of_alive _ hab]
      simp [act, hpc, hr, hsec]
    have hloop : workTimeLoop r = (workTimeLoop ∘ workTimeTurn) r := by
      rw [workTimeLoop, if_pos hsec]
      rfl
    obtain ⟨n, hfin, hserver⟩ := ih (s := s.step ⟨i, t, moved⟩) (by rw [hstep]; simpa)
      (by rw [hstep]; simpa) (by rw [hstep, store_thread]; exact deref_store hr _)
    refine ⟨n + 1, hfin, ?_⟩
    rw [runAlone_succ, hserver, hstep, store_thread, store_store, store_congr hr hloop]
  | case2 r hsec =>
    have hstep : s.step ⟨i, t, moved⟩ = s.put i { s.thread i with pc := .finished } := by
      rw [step_of_alive _ hab]
      simp [act, hpc, hr, hsec]
    have hloop : workTimeLoop r = id r := by rw [workTimeLoop, if_neg hsec, id]
    refine ⟨1, ?_, ?_⟩
    · rw [runAlone_succ, hstep]
      simp [runAlone, run]
    · rw [runAlone_succ, hstep, store_congr hr hloop]
      simp [runAlone, run, store]

theorem step_put {s : Threads lib ι} (hab : s.aborted = false) (i : ι) (th : Thread) (t : ℤ)
    (moved : Bool) :
    (s.put i th).step ⟨i, t, moved⟩ = (s.put i th).act ⟨i, t, moved⟩ th := by
  rw [step_of_alive _ (by exact hab), put_thread_self]

theorem store_put (s : Threads lib ι) (i : ι) (th : Thread) (it : Iter)
    (f : UserNode → UserNode) : (s.put i th).store it f = (s.store it f).put i th := by
  unfold store
  split_ifs <;> simp_all [put]

/-- From a failed scan on: the arrival branch. -/
theorem run_arrival {s : Threads lib ι} (i : ι) (th : Thread) (hab : s.aborted = false)
    (hpc : th.pc = .timed) (hcur : findScan th.tmp s.server.v = s.server.v.length) (t : ℤ)
    (moved : Bool) :
    ∃ n, (((s.put i th).runAlone i t moved n).thread i).pc = .finished ∧
      ((s.put i th).runAlone i t moved n).server =
        { size := s.server.size + 1,
          v := s.server.v ++ [arrive lib s.tm th.localTime th.tmp] } := by
  have hscan : (s.put i th).step ⟨i, t, moved⟩ = s.put i { th with pc := .missed } := by
    simp [step_put hab, act, hpc, hcur]
  refine ⟨5, ?_⟩
  rw [runAlone_succ, hscan]
  simp [runAlone, run, List.replicate, step, act, vEnd, hab]

/-- The departure branch, from `prev->end_time=mktime(T)` on. -/
theorem run_departing {s : Threads lib ι} (i : ι) (th : Thread) (hab : s.aborted = false)
    (hpc : th.pc = .departing) {r : UserNode} (hr : s.deref th.prev = some r) (t : ℤ)
    (moved : Bool) :
    ∃ n, (((s.put i th).runAlone i t moved n).thread i).pc = .finished ∧
      ((s.put i th).runAlone i t moved n).server =
        (s.store th.prev (depart lib s.tm th.localTime)).server := by
  obtain ⟨s₁, hs₁⟩ : ∃ s₁, s₁ = s.store th.prev fun r =>
    { r with endTime := lib.mktime s.tm } := ⟨_, rfl⟩
  obtain ⟨s₂, hs₂⟩ : ∃ s₂, s₂ = s₁.store th.prev fun r =>
    { r with leaveTime := th.localTime } := ⟨_, rfl⟩
  obtain ⟨s₃, hs₃⟩ : ∃ s₃, s₃ = s₂.store th.prev fun r =>
    { r with sec := doubleToInt (r.sec + (r.endTime - r.startTime)) } := ⟨_, rfl⟩
  have hab₁ : s₁.aborted = false := by rw [hs₁, store_aborted, hab]
  have hab₂ : s₂.aborted = false := by rw [hs₂, store_aborted, hab₁]
  have hab₃ : s₃.aborted = false := by rw [hs₃, store_aborted, hab₂]
  have hdeparting : (s.put i th).step ⟨i, t, moved⟩ = s₁.put i { th with pc := .stamped } := by
    simp [step_put hab, act, hpc, store_put, hs₁]
  have hstamped : (s₁.put i { th with pc := .stamped }).step ⟨i, t, moved⟩ =
      s₂.put i { th with pc := .leaving } := by
    simp [step_put hab₁, act, store_put, hs₂]
  have hleaving : (s₂.put i { th with pc := .leaving }).step ⟨i, t, moved⟩ =
      s₃.put i { th with pc := .carrying } := by
    simp [step_put hab₂, act, store_put, hs₃]
  have hr₃ : ∃ r₃, s₃.deref th.prev = some r₃ := by
    rw [hs₃, hs₂, hs₁]
    exact ⟨_, deref_store (deref_store (deref_store hr _) _) _⟩
  obtain ⟨r₃, hr₃⟩ := hr₃
  obtain ⟨n, hfin, hserver⟩ := run_carrying (s := s₃.put i { th with pc := .carrying })
    (i := i) hab₃ (by simp) (r := r₃) (by rw [put_thread_self]; exact hr₃) t moved
  refine ⟨n + 3, ?_⟩
  rw [runAlone_succ, hdeparting, runAlone_succ, hstamped, runAlone_succ, hleaving]
  refine ⟨hfin, ?_⟩
  rw [hserver, put_thread_self, store_put, put_server, hs₃, hs₂, hs₁, store_store, store_store,
    store_store]
  rfl

/-- From a hit on: the departure branch. -/
theorem run_departure {s : Threads lib ι} (i : ι) (th : Thread) (hab : s.aborted = false)
    (hpc : th.pc = .timed) (hcur : findScan th.tmp s.server.v < s.server.v.length) (t : ℤ)
    (moved : Bool) :
    ∃ n, (((s.put i th).runAlone i t moved n).thread i).pc = .finished ∧
      ((s.put i th).runAlone i t moved n).server =
        { s.server with
          v := s.server.v.modify (findScan th.tmp s.server.v)
            (depart lib s.tm th.localTime) } := by
  have hend : (⟨s.gen, findScan th.tmp s.server.v⟩ : Iter) ≠ s.vEnd :=
    fun h => hcur.ne (congrArg Iter.pos h)
  have hread : s.deref ⟨s.gen, findScan th.tmp s.server.v⟩ =
      some (s.server.v.get ⟨findScan th.tmp s.server.v, hcur⟩) := by
    simp [deref]
  have hscan : (s.put i th).step ⟨i, t, moved⟩ =
      s.put i { th with pc := .returned, prev := ⟨s.gen, findScan th.tmp s.server.v⟩ } := by
    simp [step_put hab, act, hpc, hcur.ne]
  have hreturned : (s.put i { th with
        pc := .returned, prev := ⟨s.gen, findScan th.tmp s.server.v⟩ }).step ⟨i, t, moved⟩ =
      s.put i { th with pc := .departing, prev := ⟨s.gen, findScan th.tmp s.server.v⟩ } := by
    rw [step_put hab]
    simp [act, hend]
  obtain ⟨n, hfin, hserver⟩ := run_departing i { th with
    pc := .departing, prev := ⟨s.gen, findScan th.tmp s.server.v⟩ } hab rfl hread t moved
  refine ⟨n + 2, ?_⟩
  rw [runAlone_succ, hscan, runAlone_succ, hreturned]
  refine ⟨hfin, ?_⟩
  rw [hserver, store, if_pos rfl]

/-- **A thread that runs alone does what `send_vector` does.** -/
theorem run_alone {s : Threads lib ι} {i : ι} (hab : s.aborted = false)
    (hpc : (s.thread i).pc = .start) (hq : strlen (s.thread i).query > 0) (t : ℤ) (moved : Bool) :
    ∃ n, ((s.runAlone i t moved n).thread i).pc = .finished ∧
      sendVector lib ⟨(s.thread i).query, t⟩ s.server = some (s.runAlone i t moved n).server := by
  obtain ⟨tmp, htmp⟩ : ∃ tmp, tmp = buynode (getString (s.thread i).query).1
    (getString (s.thread i).query).2 := ⟨_, rfl⟩
  have hstart : s.step ⟨i, t, moved⟩ = s.put i { s.thread i with pc := .named, tmp := tmp } := by
    rw [step_of_alive _ hab]
    simp only [act, hpc, if_pos hq, htmp]
  have hnamed : (s.put i { s.thread i with pc := .named, tmp := tmp }).step ⟨i, t, moved⟩ =
      { s with tm := lib.localtime t }.put i
        { s.thread i with
          pc := .timed, tmp := tmp, clock := t, localTime := lib.getTime t } := by
    rw [step_put hab]
    simp [act, put, TimeLib.getTime]
  have hle : findScan tmp s.server.v ≤ s.server.v.length := List.findIdx_le_length
  rw [sendVector, if_pos hq]
  dsimp only
  rw [← htmp]
  rcases Nat.lt_or_eq_of_le hle with hcur | hcur
  · obtain ⟨n, hfin, hserver⟩ := run_departure (s := { s with tm := lib.localtime t }) i
      { s.thread i with pc := .timed, tmp := tmp, clock := t, localTime := lib.getTime t }
      hab rfl hcur t moved
    refine ⟨n + 2, ?_⟩
    rw [runAlone_succ, hstart, runAlone_succ, hnamed, findId_of_hit hcur, if_pos hcur.ne]
    exact ⟨hfin, congrArg some hserver.symm⟩
  · obtain ⟨n, hfin, hserver⟩ := run_arrival (s := { s with tm := lib.localtime t }) i
      { s.thread i with pc := .timed, tmp := tmp, clock := t, localTime := lib.getTime t }
      hab rfl hcur t moved
    refine ⟨n + 2, ?_⟩
    rw [runAlone_succ, hstart, runAlone_succ, hnamed, findId_of_miss hcur, if_neg (by simp)]
    exact ⟨hfin, congrArg some hserver.symm⟩

end Threads

end FacePerception.Server
