import FacePerception.Server.Lifetime
import Mathlib.Logic.Relation

/-!
# Connections that overlap

`Lifetime` with the threads of `main` (`server/server_http.cpp`, lines 26–48): the calls for
descriptors and the `close`s of any number of connections come in any order, and so do the
calls of `accept`. Linux gives `accept` its descriptor when it is called; the client that
comes then gets that one.

The requests are those that `Accept` answers. A thread that gets no descriptor for `fopen`
ends the process with `fclose(NULL)` (`server/server_http.h`, line 276), and so does `main`,
which returns, when `accept` gets none. Behind a `pipe` that fails the code closes descriptors
that were never set (lines 441–449, 504–524); the model goes no further then.

Results:
* `exists_wants_iff`: the requests of the model are those for which `Accept` returns.
* `follows_accept`: each thread does with descriptors what `Accept` does.
-/

namespace FacePerception.Server.Overlaps

open CString Proc FdTable Relation

/-! ## The threads -/

/-- What a connection needs descriptors for. -/
inductive Asks
  /-- No file is there, or the content length is -1. -/
  | nothing
  | file
  | program
deriving DecidableEq

/-- `Accept` returns for `c` when it gets the descriptors that it asks for. -/
def Wants (c : Visit) : Asks → Prop
  | .nothing => ∃ line rest, FirstLine (SIZE - 1) c.sock line rest ∧
      ((¬ IsCgi line ∧ c.env.node (resourcePath (resource line)) = none) ∨
        IsCgi line ∧ queryWord line ≠ [] ∧ ∃ lines rest',
          Header (SIZE - 1) rest lines rest' ∧ contentLengthOf (word line) lines = -1)
  | .file => ∃ line rest lines rest' st, FirstLine (SIZE - 1) c.sock line rest ∧
      Header (SIZE - 1) rest lines rest' ∧ ¬ IsCgi line ∧
        c.env.node (resourcePath (resource line)) = some st ∧
          c.env.canRead (servedPath line st) = true
  | .program => ∃ line rest lines rest', FirstLine (SIZE - 1) c.sock line rest ∧
      Header (SIZE - 1) rest lines rest' ∧ IsCgi line ∧ queryWord line ≠ [] ∧
        contentLengthOf (word line) lines ≠ -1 ∧ c.env.forks = true

/-- What the system answers to a call for descriptors. -/
inductive Answer
  | client (fd : ℕ)
  | fopen (fd : Option ℕ)
  | openFile (fd : Option ℕ)
  | input (fds : Option (ℕ × ℕ))
  | output (fds : Option (ℕ × ℕ))

def Answer.set : Answer → Env → Env
  | .client fd, env => { env with client := fd }
  | .fopen fd, env => { env with fopenFd := fd }
  | .openFile fd, env => { env with openFd := fd }
  | .input fds, env => { env with inputPipe := fds }
  | .output fds, env => { env with outputPipe := fds }

/-- What a thread opens with it; `main` has opened the client's descriptor. -/
def Answer.ops : Answer → List Op
  | .client _ => []
  | .fopen fd | .openFile fd => fd.toList.map .opened
  | .input fds | .output fds => fds.toList.flatMap fun p => [.opened p.1, .opened p.2]

theorem wants_set (a : Answer) {c : Visit} {asks : Asks} (h : Wants c asks) :
    Wants ⟨a.set c.env, c.sock⟩ asks := by
  cases a <;> exact h

/-- A connection, with the answers that the system has given so far. -/
structure Request where
  visit : Visit
  asks : Asks
  wants : Wants visit asks

def Request.answered (r : Request) (a : Answer) : Request where
  visit := ⟨a.set r.visit.env, r.visit.sock⟩
  asks := r.asks
  wants := wants_set a r.wants

/-- Where a thread is. -/
inductive Stage
  | reading (client : ℕ)
  /-- `fopen` has returned, `send_header` has not begun. -/
  | opened (client file : ℕ)
  /-- The first `pipe` has returned. -/
  | piped (client : ℕ) (input : ℕ × ℕ)
  /-- What is still closed, in this order, and what never is. -/
  | closing (todo : List ℕ) (leaked : Option ℕ)

structure Job extends Request where
  ops : List Op
  stage : Stage

/-- Why the process ends, or the model goes no further. -/
inductive Stop
  | accept
  | fclose
  | pipe
deriving DecidableEq

def Job.got (j : Job) (a : Answer) (stage : Stage) : Job where
  toRequest := j.toRequest.answered a
  ops := j.ops ++ a.ops
  stage := stage

/-- The next call of a thread. -/
def Job.turn (t : FdTable) (j : Job) : FdTable × Job × Option Stop :=
  match j.stage, j.asks with
  | .reading client, .nothing => (t, { j with stage := .closing [client] none }, none)
  | .reading client, .file =>
    match t.lowest with
    | none => (t, j.got (.fopen none) j.stage, some .fclose)
    | some file => (t.take file, j.got (.fopen (some file)) (.opened client file), none)
  | .reading client, .program =>
    match t.lowestTwo with
    | none => (t, j.got (.input none) j.stage, some .pipe)
    | some input =>
      (t.takeLowest.takeLowest, j.got (.input (some input)) (.piped client input), none)
  | .opened client file, _ =>
    (t.takeLowest, j.got (.openFile t.lowest) (.closing [file, client] t.lowest), none)
  | .piped client input, _ =>
    match t.lowestTwo with
    | none => (t, j.got (.output none) j.stage, some .pipe)
    | some output =>
      (t.takeLowest.takeLowest, j.got (.output (some output))
        (.closing [input.1, output.2, input.2, output.1, client] none), none)
  | .closing (fd :: todo) leaked, _ =>
    (t.release fd, { j with ops := j.ops ++ [.closed fd], stage := .closing todo leaked }, none)
  | .closing [] _, _ => (t, j, none)

/-- What a turn of a thread can be. -/
inductive Turns (t : FdTable) (j : Job) : FdTable × Job × Option Stop → Prop
  | nothing {client : ℕ} (hstage : j.stage = .reading client) (hasks : j.asks = .nothing) :
    Turns t j (t, { j with stage := .closing [client] none }, none)
  | fopen {client file : ℕ} (hstage : j.stage = .reading client) (hasks : j.asks = .file)
    (hfile : t.lowest = some file) :
    Turns t j (t.take file, j.got (.fopen (some file)) (.opened client file), none)
  | noFile {client : ℕ} (hstage : j.stage = .reading client) (hasks : j.asks = .file)
    (hnone : t.lowest = none) : Turns t j (t, j.got (.fopen none) j.stage, some .fclose)
  | input {client : ℕ} {input : ℕ × ℕ} (hstage : j.stage = .reading client)
    (hasks : j.asks = .program) (hinput : t.lowestTwo = some input) :
    Turns t j
      (t.takeLowest.takeLowest, j.got (.input (some input)) (.piped client input), none)
  | noInput {client : ℕ} (hstage : j.stage = .reading client) (hasks : j.asks = .program)
    (hnone : t.lowestTwo = none) : Turns t j (t, j.got (.input none) j.stage, some .pipe)
  | openFile {client file : ℕ} (hstage : j.stage = .opened client file) :
    Turns t j
      (t.takeLowest, j.got (.openFile t.lowest) (.closing [file, client] t.lowest), none)
  | output {client : ℕ} {input output : ℕ × ℕ} (hstage : j.stage = .piped client input)
    (houtput : t.lowestTwo = some output) :
    Turns t j (t.takeLowest.takeLowest, j.got (.output (some output))
      (.closing [input.1, output.2, input.2, output.1, client] none), none)
  | noOutput {client : ℕ} {input : ℕ × ℕ} (hstage : j.stage = .piped client input)
    (hnone : t.lowestTwo = none) : Turns t j (t, j.got (.output none) j.stage, some .pipe)
  | close {fd : ℕ} {todo : List ℕ} {leaked : Option ℕ}
    (hstage : j.stage = .closing (fd :: todo) leaked) :
    Turns t j (t.release fd,
      { j with ops := j.ops ++ [.closed fd], stage := .closing todo leaked }, none)
  | done {leaked : Option ℕ} (hstage : j.stage = .closing [] leaked) : Turns t j (t, j, none)

theorem turns_turn (t : FdTable) (j : Job) : Turns t j (j.turn t) := by
  unfold Job.turn
  split
  · exact .nothing ‹_› ‹_›
  · split
    · exact .noFile ‹_› ‹_› ‹_›
    · exact .fopen ‹_› ‹_› ‹_›
  · split
    · exact .noInput ‹_› ‹_› ‹_›
    · exact .input ‹_› ‹_› ‹_›
  · exact .openFile ‹_›
  · split
    · exact .noOutput ‹_› ‹_›
    · exact .output ‹_› ‹_›
  · exact .close ‹_›
  · exact .done ‹_›

structure State where
  table : FdTable
  /-- The descriptor with which `main` waits in `accept`. -/
  waiting : Option ℕ
  jobs : List Job
  stopped : Option Stop

def start (t : FdTable) : State where
  table := t
  waiting := none
  jobs := []
  stopped := none

inductive Move
  /-- `main` calls `accept`. -/
  | main
  /-- A client connects, and `main` starts its thread. -/
  | connect (r : Request)
  | turn (i : ℕ)

def State.main (s : State) : State :=
  match s.waiting, s.table.lowest with
  | some _, _ => s
  | none, none => { s with stopped := some .accept }
  | none, some fd => { s with table := s.table.take fd, waiting := some fd }

def State.connect (s : State) (r : Request) : State :=
  match s.waiting with
  | none => s
  | some client =>
    { s with
      waiting := none
      jobs := s.jobs ++ [⟨r.answered (.client client), [], .reading client⟩] }

def State.turn (s : State) (i : ℕ) : State :=
  match s.jobs[i]? with
  | none => s
  | some j =>
    let (t, j', stopped) := j.turn s.table
    { s with table := t, jobs := s.jobs.set i j', stopped := stopped }

def step (s : State) (m : Move) : State :=
  if s.stopped.isSome then s
  else
    match m with
    | .main => s.main
    | .connect r => s.connect r
    | .turn i => s.turn i

/-- A step whose move is one of those that `A` allows. -/
def Next (A : State → Move → Prop) (s s' : State) : Prop := ∃ m, A s m ∧ step s m = s'

/-- A run of such steps. -/
def Run (A : State → Move → Prop) : State → State → Prop := ReflTransGen (Next A)

/-- What a step can be. -/
inductive Steps (s : State) : Move → State → Prop
  /-- The process has ended, `main` waits already or does not wait, or there is no such
  thread. -/
  | idle {m : Move} : Steps s m s
  | refused (hrun : s.stopped = none) (hwaits : s.waiting = none)
    (hnone : s.table.lowest = none) : Steps s .main { s with stopped := some .accept }
  | waits {fd : ℕ} (hrun : s.stopped = none) (hwaits : s.waiting = none)
    (hfd : s.table.lowest = some fd) :
    Steps s .main { s with table := s.table.take fd, waiting := some fd }
  | accepted {r : Request} {client : ℕ} (hrun : s.stopped = none)
    (hwaits : s.waiting = some client) :
    Steps s (.connect r)
      { s with
        waiting := none
        jobs := s.jobs ++ [⟨r.answered (.client client), [], .reading client⟩] }
  | turn {i : ℕ} {j j' : Job} {others : List Job} {t' : FdTable} {stop : Option Stop}
    (hrun : s.stopped = none) (hjobs : s.jobs.Perm (j :: others))
    (hturns : Turns s.table j (t', j', stop)) (hjobs' : (s.jobs.set i j').Perm (j' :: others)) :
    Steps s (.turn i) ⟨t', s.waiting, s.jobs.set i j', stop⟩

theorem steps_step (s : State) (m : Move) : Steps s m (step s m) := by
  unfold step
  split_ifs with hstop
  · exact .idle
  · have hrun : s.stopped = none := by simpa using hstop
    cases m with
    | main =>
      simp only [State.main]
      split
      · exact .idle
      · exact .refused hrun ‹_› ‹_›
      · exact .waits hrun ‹_› ‹_›
    | connect r =>
      simp only [State.connect]
      split
      · exact .idle
      · exact .accepted hrun ‹_›
    | turn i =>
      simp only [State.turn]
      split
      · exact .idle
      · rename_i j hj
        obtain ⟨hlt, rfl⟩ := List.getElem?_eq_some_iff.mp hj
        exact .turn hrun (List.getElem_cons_eraseIdx_perm hlt).symm (turns_turn s.table _)
          (List.set_perm_cons_eraseIdx hlt _)

/-! ## What a thread does is what `Accept` does -/

/-- Nothing is opened: `Accept` closes the connection. -/
theorem returns_nothing {c : Visit} (h : Wants c .nothing) (s : ServerHttp) :
    ∃ w, Returns (accept c.env) ⟨c.sock, s, []⟩ () w ∧
      fdOps w.trace = [c.env.client].map .closed := by
  obtain ⟨line, rest, hfirst, ⟨hline, hnode⟩ | ⟨hline, hquery, lines, rest', hheader, hminus⟩⟩ := h
  · have hnul := (hfirst.line SIZE_sub_one_pos).nul_notMem
    have hanswer := (returns_answer_of_static c.env hnul hline () ⟨rest, s, []⟩ _).mpr
      (Or.inl ⟨hnode, rfl⟩)
    exact ⟨_, (returns_accept_iff c.env () _ _).mpr ⟨line, rest, _, hfirst, hanswer, rfl⟩, rfl⟩
  · have hnul := (hfirst.line SIZE_sub_one_pos).nul_notMem
    have hsome := mt (sendVector_eq_none_iff c.env.lib ⟨queryWord line, c.env.clock⟩ s).mp
      (mt (strlen_queryWord_eq_zero_iff hnul).mp hquery)
    obtain ⟨server, hsend⟩ := Option.ne_none_iff_exists'.mp hsome
    have hanswer := (returns_answer_of_cgi c.env hnul hline () ⟨rest, s, []⟩ _).mpr
      ⟨server, lines, rest', hsend, hheader, Or.inl ⟨hminus, rfl⟩⟩
    exact ⟨_, (returns_accept_iff c.env () _ _).mpr ⟨line, rest, _, hfirst, hanswer, rfl⟩, rfl⟩

theorem fdOps_closed (es : List Event) (client : ℕ) :
    fdOps (es ++ [.closed client]) = fdOps es ++ [client].map .closed :=
  fdOps_append _ _

/-- A file. -/
theorem returns_file {c : Visit} (h : Wants c .file) {file : ℕ}
    (hfopen : c.env.fopenFd = some file) (s : ServerHttp) :
    ∃ w, Returns (accept c.env) ⟨c.sock, s, []⟩ () w ∧
      fdOps w.trace = (file :: c.env.openFd.toList).map .opened ++
        [file, c.env.client].map .closed := by
  obtain ⟨line, rest, lines, rest', st, hfirst, hheader, hline, hnode, hread⟩ := h
  have hnul := (hfirst.line SIZE_sub_one_pos).nul_notMem
  have hfile : c.env.fopen (servedPath line st) = some file := by
    rw [Env.fopen, if_pos hread, hfopen]
  have hanswer := (returns_answer_of_static c.env hnul hline () ⟨rest, s, []⟩ _).mpr
    (Or.inr ⟨st, lines, rest', file, hnode, hheader, hfile, rfl⟩)
  refine ⟨_, (returns_accept_iff c.env () _ _).mpr ⟨line, rest, _, hfirst, hanswer, rfl⟩, ?_⟩
  rcases fdOps_answer_static hnul hline hanswer with ⟨hnone, -⟩ | ⟨-, fd, hfd, hops⟩
  · rw [hnode] at hnone
    cases hnone
  · obtain rfl : fd = file := Option.some.inj (hfd.symm.trans hfopen)
    rw [fdOps_closed, hops, List.append_assoc, ← List.map_append]
    rfl

/-- A CGI program that gets its pipes. -/
theorem returns_program {c : Visit} (h : Wants c .program) {input output : ℕ × ℕ}
    (hin : c.env.inputPipe = some input) (hout : c.env.outputPipe = some output)
    (s : ServerHttp) :
    ∃ w, Returns (accept c.env) ⟨c.sock, s, []⟩ () w ∧
      fdOps w.trace = [input.1, input.2, output.1, output.2].map .opened ++
        [input.1, output.2, input.2, output.1, c.env.client].map .closed := by
  obtain ⟨line, rest, lines, rest', hfirst, hheader, hline, hquery, hminus, hforks⟩ := h
  obtain ⟨w, hreturns, htrace⟩ := exists_returns_accept c.env
    (w := ⟨c.sock, s, []⟩) hfirst hline hquery hheader hminus hforks
  refine ⟨w, hreturns, ?_⟩
  rw [htrace, List.nil_append, answeredEvents, fdOps_closed, fdOps_exchangeEvents hin hout,
    List.append_assoc, ← List.map_append]
  rfl

/-- `fclose(NULL)`. -/
theorem dies_file {c : Visit} (h : Wants c .file) (hfopen : c.env.fopenFd = none)
    (s : ServerHttp) : ∃ w, Dies (accept c.env) ⟨c.sock, s, []⟩ .fcloseNull w := by
  obtain ⟨line, rest, lines, rest', st, hfirst, hheader, hline, hnode, hread⟩ := h
  have hnul := (hfirst.line SIZE_sub_one_pos).nul_notMem
  have hfile : c.env.fopen (servedPath line st) = none := by
    rw [Env.fopen, if_pos hread, hfopen]
  obtain ⟨w, hdies⟩ := (dies_execGetFile c.env (servedPath line st) st.size .fcloseNull
    ⟨rest, s, []⟩).mpr ⟨⟨lines, rest', hheader⟩, hfile, rfl⟩
  refine ⟨w, (dies_accept c.env .fcloseNull _ w).mpr ⟨line, rest, hfirst, ?_⟩⟩
  rw [answer_eq c.env hnul, if_neg hline, dies_execGet]
  exact ⟨st, hnode, hdies⟩

/-- Every request for which `Accept` returns is of one of the three kinds. -/
theorem exists_wants_iff {c : Visit} (hfopen : c.env.fopenFd.isSome) (s : ServerHttp) :
    (∃ asks, Wants c asks) ↔ ∃ w, Returns (accept c.env) ⟨c.sock, s, []⟩ () w := by
  obtain ⟨file, hfile⟩ := Option.isSome_iff_exists.mp hfopen
  constructor
  · rintro ⟨asks, h⟩
    cases asks with
    | nothing => exact (returns_nothing h s).imp fun w hw => hw.1
    | file => exact (returns_file h hfile s).imp fun w hw => hw.1
    | program =>
      obtain ⟨line, rest, lines, rest', hfirst, hheader, hline, hquery, hminus, hforks⟩ := h
      obtain ⟨w, hreturns, -⟩ := exists_returns_accept c.env
        (w := ⟨c.sock, s, []⟩) hfirst hline hquery hheader hminus hforks
      exact ⟨w, hreturns⟩
  · rintro ⟨w, hreturns⟩
    obtain ⟨line, rest, w₁, hfirst, hanswer, -⟩ := (returns_accept_iff c.env () _ w).mp hreturns
    have hnul := (hfirst.line SIZE_sub_one_pos).nul_notMem
    by_cases hline : IsCgi line
    · obtain ⟨server, lines, rest', hsend, hheader, hrest⟩ :=
        (returns_answer_of_cgi c.env hnul hline () _ _).mp hanswer
      have hquery : queryWord line ≠ [] := by
        intro hnil
        have hnone := (sendVector_eq_none_iff c.env.lib ⟨queryWord line, c.env.clock⟩ s).mpr
          ((strlen_queryWord_eq_zero_iff hnul).mpr hnil)
        rw [hsend] at hnone
        cases hnone
      rcases hrest with ⟨hminus, -⟩ | ⟨hminus, hforks, -⟩
      · exact ⟨.nothing, line, rest, hfirst, Or.inr ⟨hline, hquery, lines, rest', hheader, hminus⟩⟩
      · exact ⟨.program, line, rest, lines, rest', hfirst, hheader, hline, hquery, hminus, hforks⟩
    · rcases (returns_answer_of_static c.env hnul hline () _ _).mp hanswer with
        ⟨hnode, -⟩ | ⟨st, lines, rest', fd, hnode, hheader, hfd, -⟩
      · exact ⟨.nothing, line, rest, hfirst, Or.inl ⟨hline, hnode⟩⟩
      · have hread : c.env.canRead (servedPath line st) = true := by
          by_contra hnot
          rw [Env.fopen, if_neg hnot] at hfd
          cases hfd
        exact ⟨.file, line, rest, lines, rest', st, hfirst, hheader, hline, hnode, hread⟩

/-- The calls that a thread has made and those still to come are the calls of `Accept`. -/
def Job.Follows (j : Job) : Prop :=
  match j.stage with
  | .reading client => j.visit.env.client = client ∧ j.ops = []
  | .opened client file => j.asks = .file ∧ j.visit.env.client = client ∧
      j.visit.env.fopenFd = some file ∧ j.ops = [.opened file]
  | .piped client input => j.asks = .program ∧ j.visit.env.client = client ∧
      j.visit.env.inputPipe = some input ∧ j.ops = [.opened input.1, .opened input.2]
  | .closing todo _ => ∀ s, ∃ w, Returns (accept j.visit.env) ⟨j.visit.sock, s, []⟩ () w ∧
      fdOps w.trace = j.ops ++ todo.map .closed

theorem follows_turn {t t' : FdTable} {j j' : Job} {stop : Option Stop} (h : j.Follows)
    (hturns : Turns t j (t', j', stop)) : j'.Follows := by
  unfold Job.Follows at h
  cases hturns with
  | nothing hstage hasks =>
    rw [hstage] at h
    obtain ⟨hclient, hops⟩ := h
    intro s
    obtain ⟨w, hreturns, htrace⟩ := returns_nothing (hasks ▸ j.wants) s
    exact ⟨w, hreturns, by rw [htrace, hclient, hops, List.nil_append]⟩
  | fopen hstage hasks hfile =>
    rw [hstage] at h
    exact ⟨hasks, h.1, rfl, by rw [Job.got, h.2]; rfl⟩
  | noFile hstage hasks hnone =>
    rw [hstage] at h ⊢
    exact ⟨h.1, by rw [Job.got, h.2]; rfl⟩
  | input hstage hasks hinput =>
    rw [hstage] at h
    exact ⟨hasks, h.1, rfl, by rw [Job.got, h.2]; rfl⟩
  | noInput hstage hasks hnone =>
    rw [hstage] at h ⊢
    exact ⟨h.1, by rw [Job.got, h.2]; rfl⟩
  | openFile hstage =>
    rw [hstage] at h
    obtain ⟨hasks, hclient, hfopen, hops⟩ := h
    intro s
    have hwants : Wants j.visit .file := hasks ▸ j.wants
    obtain ⟨w, hreturns, htrace⟩ := returns_file (wants_set (.openFile t.lowest) hwants) hfopen s
    refine ⟨w, hreturns, htrace.trans ?_⟩
    rw [Job.got, hops, ← hclient]
    rfl
  | @output client input output hstage houtput =>
    rw [hstage] at h
    obtain ⟨hasks, hclient, hin, hops⟩ := h
    intro s
    have hwants : Wants j.visit .program := hasks ▸ j.wants
    obtain ⟨w, hreturns, htrace⟩ :=
      returns_program (wants_set (.output (some output)) hwants) hin rfl s
    refine ⟨w, hreturns, htrace.trans ?_⟩
    rw [Job.got, hops, ← hclient]
    rfl
  | noOutput hstage hnone =>
    rw [hstage] at h ⊢
    exact ⟨h.1, h.2.1, h.2.2.1, by rw [Job.got, h.2.2.2]; rfl⟩
  | close hstage =>
    rw [hstage] at h
    intro s
    obtain ⟨w, hreturns, htrace⟩ := h s
    refine ⟨w, hreturns, htrace.trans ?_⟩
    rw [List.map_cons, List.append_cons]
  | done hstage =>
    rw [hstage] at h
    unfold Job.Follows
    rwa [hstage]

/-- A thread that ends the process with `fclose(NULL)` does what `Accept` does then. -/
theorem dies_turn {t t' : FdTable} {j j' : Job} (hturns : Turns t j (t', j', some .fclose))
    (s : ServerHttp) : ∃ w, Dies (accept j'.visit.env) ⟨j'.visit.sock, s, []⟩ .fcloseNull w := by
  cases hturns with
  | noFile hstage hasks hnone =>
    have hwants : Wants j.visit .file := hasks ▸ j.wants
    exact dies_file (wants_set (.fopen none) hwants) rfl s

/-! ## Nobody shares a descriptor -/

/-- What a connection has opened and never closes. -/
def Job.leaks (j : Job) : List ℕ :=
  match j.stage with
  | .closing _ leaked => leaked.toList
  | _ => []

/-- What it has opened and still closes. -/
def Job.held (j : Job) : List ℕ :=
  match j.stage with
  | .reading client => [client]
  | .opened client file => [file, client]
  | .piped client input => [input.2, input.1, client]
  | .closing todo _ => todo

def Job.fds (j : Job) : List ℕ := j.leaks ++ j.held

/-- What all of them have, and `main`. -/
def State.fds (s : State) : List ℕ := s.waiting.toList ++ s.jobs.flatMap Job.fds

theorem holds_turn {n : ℕ} {t t' : FdTable} {j j' : Job} {stop : Option Stop} {others : List ℕ}
    (h : Holds n t (j.fds ++ others)) (hturns : Turns t j (t', j', stop)) :
    Holds n t' (j'.fds ++ others) := by
  unfold Job.fds Job.leaks Job.held at h
  cases hturns with
  | nothing hstage hasks =>
    rw [hstage] at h
    exact h
  | fopen hstage hasks hfile =>
    rw [hstage] at h
    exact h.take hfile
  | noFile hstage hasks hnone | noInput hstage hasks hnone | noOutput hstage hnone =>
    exact h
  | input hstage hasks hinput =>
    rw [hstage] at h
    exact h.takeTwo hinput
  | openFile hstage =>
    rw [hstage] at h
    have hholds := h.takeLowest
    rw [← List.append_assoc] at hholds
    exact hholds
  | @output client input output hstage houtput =>
    rw [hstage] at h
    have hperm : [output.2, output.1, input.2, input.1].Perm
        [input.1, output.2, input.2, output.1] := by
      rw [List.perm_iff_count]
      intro fd
      simp only [List.count_cons, List.count_nil]
      omega
    exact (h.takeTwo houtput).perm (hperm.append_right (client :: others))
  | @close fd todo leaked hstage =>
    rw [hstage] at h
    have hperm : (leaked.toList ++ fd :: todo).Perm (fd :: (leaked.toList ++ todo)) :=
      List.perm_middle
    exact (h.perm (hperm.append_right others)).release
  | done hstage => exact h

/-- What holds in every state of a run that has `n` descriptors to give. -/
structure Inv (n : ℕ) (s : State) : Prop where
  holds : Holds n s.table s.fds
  follows : ∀ j ∈ s.jobs, j.Follows
  dies : s.stopped = some .fclose → ∃ j ∈ s.jobs, ∀ store, ∃ w,
    Dies (accept j.visit.env) ⟨j.visit.sock, store, []⟩ .fcloseNull w

theorem inv_start (t : FdTable) : Inv t.free (start t) where
  holds := ⟨List.nodup_nil, by simp [State.fds, start], rfl⟩
  follows := by simp [start]
  dies := by simp [start]

theorem inv_steps {n : ℕ} {s s' : State} {m : Move} (h : Inv n s) (hsteps : Steps s m s') :
    Inv n s' := by
  cases hsteps with
  | idle => exact h
  | refused hrun hwaits hnone => exact ⟨h.holds, h.follows, by simp⟩
  | @waits fd hrun hwaits hfd =>
    refine ⟨?_, h.follows, fun hstop => by simp [hrun] at hstop⟩
    have hholds := h.holds.take hfd
    rw [State.fds, hwaits] at hholds
    exact hholds
  | @accepted r client hrun hwaits =>
    refine ⟨?_, ?_, fun hstop => by simp [hrun] at hstop⟩
    · have hfds : s.fds.Perm (s.jobs.flatMap Job.fds ++ [client]) := by
        rw [State.fds, hwaits]
        exact (List.perm_append_singleton client _).symm
      have hholds := h.holds.perm hfds
      simpa [State.fds, Job.fds, Job.leaks, Job.held] using hholds
    · intro j hj
      rcases List.mem_append.mp hj with hj | hj
      · exact h.follows j hj
      · rw [List.mem_singleton.mp hj]
        exact ⟨rfl, rfl⟩
  | @turn i j j' others t' stop hrun hjobs hturns hjobs' =>
    -- the thread's own descriptors come first
    have hfds : s.fds.Perm (j.fds ++ (s.waiting.toList ++ others.flatMap Job.fds)) :=
      ((hjobs.flatMap_right Job.fds).append_left _).trans (List.perm_append_comm_assoc _ _ _)
    have hfds' : (j'.fds ++ (s.waiting.toList ++ others.flatMap Job.fds)).Perm
        (s.waiting.toList ++ (s.jobs.set i j').flatMap Job.fds) :=
      (List.perm_append_comm_assoc _ _ _).trans
        ((hjobs'.flatMap_right Job.fds).symm.append_left _)
    have hholds := h.holds.perm hfds
    have hmem : ∀ {j'' : Job}, j'' ∈ s.jobs.set i j' ↔ j'' = j' ∨ j'' ∈ others := by
      intro j''
      rw [hjobs'.mem_iff, List.mem_cons]
    refine ⟨?_, ?_, ?_⟩
    · exact (holds_turn hholds hturns).perm hfds'
    · intro j'' hj''
      rcases hmem.mp hj'' with rfl | hj''
      · exact follows_turn (h.follows j (hjobs.mem_iff.mpr List.mem_cons_self)) hturns
      · exact h.follows j'' (hjobs.mem_iff.mpr (List.mem_cons_of_mem _ hj''))
    · rintro rfl
      exact ⟨j', hmem.mpr (Or.inl rfl), dies_turn hturns⟩

/-- What holds after every run. -/
theorem inv_run {n : ℕ} {A : State → Move → Prop} {s s' : State} (hs : Inv n s)
    (h : Run A s s') : Inv n s' := by
  induction h with
  | refl => exact hs
  | tail _ hnext ih =>
    obtain ⟨m, -, rfl⟩ := hnext
    exact inv_steps ih (steps_step _ m)

/-! ## What every run does -/

/-- **Each thread does with descriptors what `Accept` does**, whatever the others do
meanwhile: with the answers that it has got `Accept` returns and opens and closes what the
thread has opened and closed and will close, or ends the process with `fclose(NULL)` where the
thread has. Nobody shares a descriptor, and none is lost but those that `send_header` leaves
open. -/
theorem follows_accept {A : State → Move → Prop} {t : FdTable} {s : State}
    (h : Run A (start t) s) :
    (∀ j ∈ s.jobs, ∀ todo leaked, j.stage = .closing todo leaked → ∀ store, ∃ w,
      Returns (accept j.visit.env) ⟨j.visit.sock, store, []⟩ () w ∧
        fdOps w.trace = j.ops ++ todo.map .closed) ∧
    (s.stopped = some .fclose → ∃ j ∈ s.jobs, ∀ store, ∃ w,
      Dies (accept j.visit.env) ⟨j.visit.sock, store, []⟩ .fcloseNull w) ∧
    s.fds.Nodup ∧ (∀ fd ∈ s.fds, fd ∈ s.table.used) ∧
      s.table.free + s.fds.length = t.free := by
  have hinv := inv_run (inv_start t) h
  refine ⟨?_, hinv.dies, hinv.holds.nodup, hinv.holds.used, hinv.holds.free⟩
  intro j hj todo leaked hstage
  have hfollows := hinv.follows j hj
  rw [Job.Follows, hstage] at hfollows
  exact hfollows

theorem wants_asksForA : Wants asksForA .file := by
  have hread : asksForA.env.canRead (resourcePath (resource (bytes "GET /a HTTP/1.0" ++ [LF]))) =
      true := by
    rw [Env.canRead, show asksForA.env.node _ = _ from isFile_asksForA]
    rfl
  exact ⟨_, _, [[LF]], _, _, firstLine_asksForA, header_empty_line SIZE_sub_one_pos [], by decide,
    isFile_asksForA, hread⟩

theorem wants_checkInAt (t : ℤ) : Wants (checkInAt t) .program :=
  ⟨_, _, _, _, firstLine_checkIn, header_empty_line SIZE_sub_one_pos [], by decide, by decide,
    by decide, rfl⟩

/-- A request for a file. -/
def fileRequest : Request := ⟨asksForA, .file, wants_asksForA⟩

/-- A check-in. -/
def checkInRequest : Request := ⟨checkInAt 0, .program, wants_checkInAt 0⟩

def twelveFree : FdTable where
  limit := 16
  used := {0, 1, 2, 3}
  used_lt := by decide

/-- A request for a file and a check-in at once, while `main` waits for the next client. -/
def meeting : List Move :=
  [.main, .connect fileRequest, .main, .connect checkInRequest, .turn 0, .turn 1, .main, .turn 0,
    .turn 1]

theorem run_foldl (moves : List Move) (s : State) :
    Run (fun _ _ => True) s (moves.foldl step s) := by
  induction moves generalizing s with
  | nil => exact .refl
  | cons m moves ih => exact .head ⟨m, trivial, rfl⟩ (ih (step s m))

/-- Both have what they opened to close, and `main` holds a descriptor between theirs. -/
theorem follows_accept_example :
    ∃ s j j', Run (fun _ _ => True) (start twelveFree) s ∧ s.jobs = [j, j'] ∧
      s.waiting = some 9 ∧ j.stage = .closing [6, 4] (some 10) ∧
      j'.stage = .closing [7, 12, 8, 11, 5] none ∧
        (∃ w, Returns (accept j.visit.env) ⟨j.visit.sock, ServerHttp.init, []⟩ () w ∧
          fdOps w.trace = j.ops ++ [6, 4].map .closed) ∧
        ∃ w, Returns (accept j'.visit.env) ⟨j'.visit.sock, ServerHttp.init, []⟩ () w ∧
          fdOps w.trace = j'.ops ++ [7, 12, 8, 11, 5].map .closed := by
  have hrun := run_foldl meeting (start twelveFree)
  obtain ⟨hreturns, -⟩ := follows_accept hrun
  refine ⟨_, _, _, hrun, rfl, rfl, rfl, rfl, ?_, ?_⟩
  · exact hreturns _ List.mem_cons_self _ _ rfl ServerHttp.init
  · exact hreturns _ (List.mem_cons_of_mem _ List.mem_cons_self) _ _ rfl ServerHttp.init

end FacePerception.Server.Overlaps
