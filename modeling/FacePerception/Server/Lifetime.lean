import FacePerception.Lib.FdTable
import FacePerception.Server.Descriptors
import FacePerception.Server.Sessions
import FacePerception.Server.StaticFile

/-!
# The descriptors of the server from its start on

`Sessions` with the table of descriptors that the process has: `accept` and every call of a
request get the lowest free descriptor, or fail. Linux gives `accept` its descriptor when it
is called, and `main` calls it again as soon as it has started the thread of a connection
(`server/server_http.cpp`, lines 26–48): while it waits it holds one. `send_header` never
closes what it opens (`server/server_http.h`, line 232), so that the table fills up.

The connections come one after another, and `main` is back in `accept` before a request
opens anything.

Results:
* `free_answered`: what one connection leaves free.
* `free_lives`: what any number of connections leave free.
* `leaks_add_up`: how long the server serves files and gives check-ins their pipes, by the
  descriptors that are free when it starts.
-/

namespace FacePerception.Server

open CString Proc FdTable

/-! ## Connections that share a table -/

def Event.fdOp : Event → Option Op
  | .opened fd => some (.opened fd)
  | .closed fd => some (.closed fd)
  | .sent _ => none
  | .written _ _ => none

/-- What is opened and closed. -/
def fdOps (es : List Event) : List Op := es.filterMap Event.fdOp

/-- The answers of a system in which `accept` has returned `client`, has been called again and
has left the table `t`. -/
def Env.withTable (env : Env) (client : ℕ) (t : FdTable) : Env :=
  { env with
    client := client
    fopenFd := t.lowest
    openFd := t.takeLowest.lowest
    inputPipe := t.lowestTwo
    outputPipe := (if t.lowestTwo.isSome then t.takeLowest.takeLowest else t).lowestTwo }

/-- From the table `t`, the store `s` and `main` in `accept` with the descriptor `client`, the
server serves `visits`, one after another. It leaves the table `t'`, the store `s'` and `main`
in `accept` with `client'`, and has done `traces`. -/
inductive Lives : FdTable → ℕ → ServerHttp → List Visit → List (List Event) →
    FdTable → ℕ → ServerHttp → Prop
  | nil {t : FdTable} {client : ℕ} {s : ServerHttp} : Lives t client s [] [] t client s
  | cons {t t' : FdTable} {client next client' : ℕ} {s s' : ServerHttp} {c : Visit} {w : World}
    {visits : List Visit} {traces : List (List Event)} (hnext : t.lowest = some next)
    (haccept : Returns (accept (c.env.withTable client (t.take next))) ⟨c.sock, s, []⟩ () w)
    (hrest : Lives ((t.take next).replay (fdOps w.trace)) next w.server visits traces
      t' client' s') :
    Lives t client s (c :: visits) (w.trace :: traces) t' client' s'

/-- The connection asks for a file, or a directory, that is there. -/
def Visit.asksFile (c : Visit) : Bool :=
  match readLine (SIZE - 1) c.sock with
  | some (line, _) => !decide (IsCgi line) && (c.env.node (resourcePath (resource line))).isSome
  | none => false

/-- The connection asks for a CGI program. -/
def Visit.asksCgi (c : Visit) : Bool :=
  match readLine (SIZE - 1) c.sock with
  | some (line, _) => decide (IsCgi line)
  | none => false

/-- How many of them ask for a file. -/
def files (visits : List Visit) : ℕ := visits.countP Visit.asksFile

/-! ## What one connection leaves free -/

theorem fdOps_append (es es' : List Event) : fdOps (es ++ es') = fdOps es ++ fdOps es' :=
  List.filterMap_append

theorem fdOps_filter (es : List Event) : fdOps (es.filter Event.isFd) = fdOps es := by
  induction es with
  | nil => rfl
  | cons e es ih =>
    cases e with
    | opened fd => exact congrArg (Op.opened fd :: ·) ih
    | closed fd => exact congrArg (Op.closed fd :: ·) ih
    | sent bs => exact ih
    | written fd c => exact ih

theorem fdOps_headerEvents (env : Env) (path : Bytes) (size : ℕ) :
    fdOps (headerEvents env path size) = (env.openFile path).toList.map .opened := by
  rw [← fdOps_filter, filter_headerEvents, openedEvents]
  cases env.openFile path with
  | none => rfl
  | some fd => rfl

theorem fdOps_exchangeEvents {env : Env} {input output : ℕ × ℕ} (hin : env.inputPipe = some input)
    (hout : env.outputPipe = some output) (path method query : Bytes) (contentLength : ℤ)
    (body : Bytes) : fdOps (exchangeEvents env path method query contentLength body) =
      [input.1, input.2, output.1, output.2].map Op.opened ++
        [input.1, output.2, input.2, output.1].map Op.closed := by
  rw [← fdOps_filter, filter_exchangeEvents]
  simp [pipeEvents, Env.cgiInput, Env.cgiOutput, hin, hout, fdOps, Event.fdOp]

/-- What a static request opens and closes. -/
theorem fdOps_answer_static {env : Env} {line : Bytes} (hnul : NUL ∉ line) (hline : ¬ IsCgi line)
    {sock : Bytes} {s : ServerHttp} {u : Unit} {w : World}
    (h : Returns (answer env line) ⟨sock, s, []⟩ u w) :
    (env.node (resourcePath (resource line)) = none ∧ fdOps w.trace = []) ∨
      ((env.node (resourcePath (resource line))).isSome ∧ ∃ fd, env.fopenFd = some fd ∧
        fdOps w.trace = (fd :: env.openFd.toList).map .opened ++ [fd].map .closed) := by
  rcases (returns_answer_of_static env hnul hline u _ w).mp h with
    ⟨hnode, rfl⟩ | ⟨st, lines, rest, fd, hnode, -, hfopen, rfl⟩
  · exact Or.inl ⟨hnode, rfl⟩
  · -- what `fopen` can read `open` can read too
    have hread : env.canRead (servedPath line st) = true := by
      by_contra hnot
      rw [Env.fopen, if_neg hnot] at hfopen
      cases hfopen
    rw [Env.fopen, if_pos hread] at hfopen
    refine Or.inr ⟨by rw [hnode]; rfl, fd, hfopen, ?_⟩
    have hopened : ∀ es, fdOps (.opened fd :: es) = .opened fd :: fdOps es := fun _ => rfl
    have hclosed : fdOps [.closed fd] = [.closed fd] := rfl
    dsimp only
    rw [List.nil_append, List.cons_append, hopened, fdOps_append, fdOps_headerEvents, hclosed,
      Env.openFile, if_pos hread]
    rfl

/-- What a CGI request that gets its pipes opens and closes. -/
theorem fdOps_answer_cgi {env : Env} {line : Bytes} (hnul : NUL ∉ line) (hline : IsCgi line)
    {input output : ℕ × ℕ} (hin : env.inputPipe = some input) (hout : env.outputPipe = some output)
    {sock : Bytes} {s : ServerHttp} {u : Unit} {w : World}
    (h : Returns (answer env line) ⟨sock, s, []⟩ u w) :
    fdOps w.trace = [] ∨ fdOps w.trace =
      [input.1, input.2, output.1, output.2].map Op.opened ++
        [input.1, output.2, input.2, output.1].map Op.closed := by
  obtain ⟨server, lines, rest, -, -, ⟨-, rfl⟩ | ⟨-, -, rfl⟩⟩ :=
    (returns_answer_of_cgi env hnul hline u _ w).mp h
  · exact Or.inl rfl
  · exact Or.inr (fdOps_exchangeEvents hin hout _ _ _ _ _)

/-- With `main` back in `accept` with `next`, a request that does `ops` leaves `n` descriptors
free, and that one where it is. -/
def Leaves (t : FdTable) (next : ℕ) (ops : List Op) (n : ℕ) : Prop :=
  ((t.take next).replay ops).free = n ∧ next ∈ ((t.take next).replay ops).used

section Answered

variable {t : FdTable} {next : ℕ} (hnext : t.lowest = some next)

include hnext

theorem free_take_next : (t.take next).free + 1 = t.free :=
  free_take (lowest_eq_some hnext).1 (lowest_eq_some hnext).2

variable {client : ℕ} (hclient : client ∈ t.used)

include hclient

theorem client_mem : client ∈ (t.take next).used :=
  (mem_take (lowest_eq_some hnext).1).mpr (Or.inr hclient)

theorem ne_client {fds : List ℕ} (h : Gets (t.take next) fds) : ∀ fd ∈ fds, fd ≠ client := by
  rintro fd hfd rfl
  exact h.nodup.2 fd hfd (client_mem hnext hclient)

/-- What `main` holds it keeps. -/
theorem next_mem_replay {fds closed : List ℕ} (h : Gets (t.take next) fds)
    (hclosed : ∀ fd ∈ closed, fd = client ∨ fd ∈ fds) :
    next ∈ ((t.take next).replay (fds.map .opened ++ closed.map .closed)).used := by
  obtain ⟨hlt, hnot⟩ := lowest_eq_some hnext
  have hmem : next ∈ (t.take next).used := (mem_take hlt).mpr (Or.inl rfl)
  refine mem_replay hmem fun hops => ?_
  rw [List.mem_append, List.mem_map, List.mem_map] at hops
  rcases hops with ⟨fd, -, heq⟩ | ⟨fd, hfd, heq⟩
  · cases heq
  · cases heq
    rcases hclosed next hfd with rfl | hfds
    · exact hnot hclient
    · exact h.nodup.2 next hfds hmem

/-- A file: `fopen` and `send_header` open one descriptor each, and one is closed. -/
theorem free_file {fd : ℕ} (hfopen : (t.take next).lowest = some fd) :
    Leaves t next ((fd :: (t.take next).takeLowest.lowest.toList).map .opened ++
      [fd, client].map .closed) (if 3 ≤ t.free then t.free - 1 else t.free) := by
  have hone := free_take_next hnext
  have hpos := (lowest_isSome_iff _).mp (Option.isSome_of_eq_some hfopen)
  have hopen := (t.take next).takeLowest.lowest_isSome_iff
  rw [free_takeLowest] at hopen
  have hgets : Gets (t.take next) (fd :: (t.take next).takeLowest.lowest.toList) := by
    refine .cons hfopen ?_
    cases h : (t.take next).takeLowest.lowest with
    | none => exact .nil
    | some fd' => exact .cons h .nil
  have hne := ne_client hnext hclient hgets fd List.mem_cons_self
  have hclosed : ∀ fd' ∈ [fd, client], fd' ∈ (t.take next).used ∨
      fd' ∈ fd :: (t.take next).takeLowest.lowest.toList := by
    rw [List.forall_mem_cons, List.forall_mem_singleton]
    exact ⟨Or.inr List.mem_cons_self, Or.inl (client_mem hnext hclient)⟩
  have hfree := free_gets_closed hgets (by simp [hne]) hclosed
  simp only [List.length_cons, List.length_nil] at hfree
  refine ⟨?_, next_mem_replay hnext hclient hgets (by simp)⟩
  cases h : (t.take next).takeLowest.lowest with
  | none =>
    rw [h] at hopen hfree
    simp only [Option.isSome_none, Bool.false_eq_true, false_iff] at hopen
    simp only [Option.toList_none, List.length_nil] at hfree ⊢
    split_ifs <;> omega
  | some fd' =>
    rw [h] at hopen hfree
    simp only [Option.isSome_some, true_iff] at hopen
    simp only [Option.toList_some, List.length_cons, List.length_nil] at hfree ⊢
    split_ifs <;> omega

/-- A CGI program: both pipes are closed again. -/
theorem free_pipes {input output : ℕ × ℕ} (hin : (t.take next).lowestTwo = some input)
    (hout : (t.take next).takeLowest.takeLowest.lowestTwo = some output) :
    Leaves t next ([input.1, input.2, output.1, output.2].map .opened ++
      [input.1, output.2, input.2, output.1, client].map .closed) t.free := by
  have hone := free_take_next hnext
  have hgets := gets_of_lowestTwo hin (gets_of_lowestTwo hout .nil)
  have hne := ne_client hnext hclient hgets
  have hnodup : [input.1, output.2, input.2, output.1, client].Nodup := by
    have hpipes := hgets.nodup.1
    grind
  have hclosed : ∀ fd ∈ [input.1, output.2, input.2, output.1, client],
      fd ∈ (t.take next).used ∨ fd ∈ [input.1, input.2, output.1, output.2] := by
    have hmem := client_mem hnext hclient
    grind
  have hfree := free_gets_closed hgets hnodup hclosed
  simp only [List.length_cons, List.length_nil] at hfree
  refine ⟨by omega, next_mem_replay hnext hclient hgets fun fd hfd => ?_⟩
  simp only [List.mem_cons, List.not_mem_nil, or_false] at hfd ⊢
  tauto

/-- Nothing is opened. -/
theorem free_nothing : Leaves t next ([client].map .closed) t.free := by
  have hone := free_take_next hnext
  have hrelease := free_release (client_mem hnext hclient)
  have hkept : next ∈ ((t.take next).replay ([].map .opened ++ [client].map .closed)).used :=
    next_mem_replay hnext hclient .nil (by simp)
  refine ⟨?_, hkept⟩
  rw [List.map_singleton, replay, List.foldl_cons, List.foldl_nil, apply]
  omega

/-- **What one connection leaves free**, when a CGI program gets its pipes. -/
theorem free_answered {c : Visit} {s : ServerHttp} {u : Unit} {w : World}
    (haccept : Returns (accept (c.env.withTable client (t.take next))) ⟨c.sock, s, []⟩ u w)
    (hcgi : c.asksCgi → 5 ≤ t.free) :
    Leaves t next (fdOps w.trace) (if c.asksFile ∧ 3 ≤ t.free then t.free - 1 else t.free) := by
  obtain ⟨line, rest, w₁, hfirst, hanswer, rfl⟩ := (returns_accept_iff _ u _ w).mp haccept
  have hread := (readLine_eq_some_iff SIZE_sub_one_pos _ _ _).mpr hfirst
  have hnul := (hfirst.line SIZE_sub_one_pos).nul_notMem
  have hlast : fdOps (w₁.trace ++ [.closed client]) = fdOps w₁.trace ++ [client].map .closed :=
    fdOps_append _ _
  simp only [Visit.asksCgi, Visit.asksFile, hread] at hcgi ⊢
  rw [show (c.env.withTable client (t.take next)).client = client from rfl, hlast]
  by_cases hline : IsCgi line
  · have hfive := hcgi (decide_eq_true hline)
    have hone := free_take_next hnext
    obtain ⟨input, hinput⟩ := Option.isSome_iff_exists.mp
      ((t.take next).lowestTwo_isSome_iff.mpr (by omega))
    obtain ⟨output, houtput⟩ := Option.isSome_iff_exists.mp
      ((t.take next).takeLowest.takeLowest.lowestTwo_isSome_iff.mpr (by
        rw [free_takeLowest, free_takeLowest]
        omega))
    have hout : (c.env.withTable client (t.take next)).outputPipe = some output := by
      simp [Env.withTable, hinput, houtput]
    simp only [hline, decide_true, Bool.not_true, Bool.false_and, Bool.false_eq_true, false_and,
      if_false]
    rcases fdOps_answer_cgi hnul hline hinput hout hanswer with hops | hops
    · rw [hops]
      exact free_nothing hnext hclient
    · rw [hops, List.append_assoc]
      exact free_pipes hnext hclient hinput houtput
  · simp only [hline, decide_false, Bool.not_false, Bool.true_and]
    rcases fdOps_answer_static hnul hline hanswer with ⟨hnode, hops⟩ | ⟨hnode, fd, hfopen, hops⟩
    · have hnone : c.env.node (resourcePath (resource line)) = none := hnode
      rw [hops, hnone]
      exact free_nothing hnext hclient
    · have hsome : (c.env.node (resourcePath (resource line))).isSome = true := hnode
      have hopen : (c.env.withTable client (t.take next)).openFd =
          (t.take next).takeLowest.lowest := rfl
      have hfree := free_file hnext hclient hfopen
      rw [hops, hsome, hopen, List.append_assoc, ← List.map_append, List.singleton_append]
      simpa only [true_and] using hfree

end Answered

/-! ## What any number of connections leave free -/

/-- Every check-in comes while enough of the `n` descriptors that the server had at its start
are free: one for the connection, one for `main`, four for the pipes, and one for each file
asked for before. -/
def InTime (n : ℕ) (visits : List Visit) : Prop :=
  ∀ before c after, visits = before ++ c :: after → c.asksCgi → files before + 6 ≤ n

/-- **What any number of connections leave free**, besides the descriptor of `main`. -/
theorem free_lives {t t' : FdTable} {client client' : ℕ} {s s' : ServerHttp}
    {visits : List Visit} {traces : List (List Event)}
    (h : Lives t client s visits traces t' client' s') (hclient : client ∈ t.used)
    (htwo : 2 ≤ t.free) (hcgi : InTime (t.free + 1) visits) :
    t'.free = max 2 (t.free - files visits) ∧ client' ∈ t'.used := by
  induction h with
  | nil =>
    rw [files, List.countP_nil]
    exact ⟨by omega, hclient⟩
  | @cons t t' client next client' s s' c w visits traces hnext haccept hrest ih =>
    have hfirst : Leaves t next (fdOps w.trace) _ := free_answered hnext hclient haccept
      fun hasks => by simpa [files] using hcgi [] c visits rfl hasks
    obtain ⟨hfree, hkept⟩ := hfirst
    have hfiles : files (c :: visits) = files visits + if c.asksFile then 1 else 0 := by
      rw [files, List.countP_cons]
      rfl
    have hrestcgi : InTime (((t.take next).replay (fdOps w.trace)).free + 1) visits := by
      intro before c' after heq hasks
      have hle := hcgi (c :: before) c' after (by rw [heq]; rfl) hasks
      rw [files, List.countP_cons] at hle
      rw [hfree, files]
      split_ifs at hle ⊢ <;> grind
    obtain ⟨hfree', hkept'⟩ := ih hkept (by rw [hfree]; split_ifs <;> omega) hrestcgi
    refine ⟨?_, hkept'⟩
    rw [hfiles, hfree', hfree]
    by_cases hasks : c.asksFile = true
    · simp only [hasks, true_and, if_true]
      split_ifs <;> omega
    · simp only [hasks, false_and, if_false, Nat.add_zero, Bool.false_eq_true]

/-! ## How long it serves -/

/-- A request for a file is answered, and the file is sent whole if there is a second
descriptor for `send_header`. -/
theorem answers_file {t : FdTable} (htwo : 2 ≤ t.free) {client next : ℕ}
    (hnext : t.lowest = some next) {c : Visit} {line rest rest' content : Bytes}
    {lines : List Bytes}
    (hfirst : FirstLine (SIZE - 1) c.sock line rest) (hheader : Header (SIZE - 1) rest lines rest')
    (hline : ¬ IsCgi line) (hfile : IsFile c.env (resourcePath (resource line)) content)
    (hne : content ≠ []) (s : ServerHttp) :
    ∃ w, Returns (accept (c.env.withTable client (t.take next))) ⟨c.sock, s, []⟩ () w ∧
      (SendsWhole w.trace content ↔ 3 ≤ t.free) := by
  have hnul := (hfirst.line SIZE_sub_one_pos).nul_notMem
  have hone := free_take_next hnext
  obtain ⟨fd, hfd⟩ := Option.isSome_iff_exists.mp
    ((t.take next).lowest_isSome_iff.mpr (by omega))
  have hopen := (t.take next).takeLowest.lowest_isSome_iff
  rw [free_takeLowest] at hopen
  generalize henv : c.env.withTable client (t.take next) = env
  have hnode : IsFile env (resourcePath (resource line)) content := henv ▸ hfile
  have hfopen : env.fopen (resourcePath (resource line)) = some fd := by
    rw [hnode.fopen, ← henv]
    exact hfd
  have hanswer := (returns_answer_of_static env hnul hline () ⟨rest, s, []⟩ _).mpr
    (Or.inr ⟨.file true content, lines, rest', fd, hnode, hheader, hfopen, rfl⟩)
  refine ⟨_, (returns_accept_iff env () _ _).mpr ⟨line, rest, _, hfirst, hanswer, rfl⟩, ?_⟩
  have hsent := sentBytes_headerEvents hnode fd (Node.file true content).size
  have hclosed : sentBytes [.closed env.client] = [] := rfl
  have htrace := sentBytes_append ([] ++ .opened fd :: headerEvents env
    (resourcePath (resource line)) (Node.file true content).size ++ [.closed fd])
    [.closed env.client]
  rw [hclosed, List.append_nil, List.nil_append, hsent] at htrace
  refine (sendsWhole_fileMessage_iff (by decide) (by decide) htrace content).trans
    ((fileBody_eq_iff _ _ _).trans ?_)
  have hsecond : env.openFd = (t.take next).takeLowest.lowest := by rw [← henv]; rfl
  rw [Covers, hsecond, hopen]
  constructor
  · rintro (hnil | ⟨hpos, -⟩)
    · exact absurd hnil hne
    · omega
  · intro hthree
    exact Or.inr ⟨by omega, le_rfl⟩

/-- **The leaks add up.** Started with `n` free descriptors, the server accepts the next
connection after any others. A check-in gets its pipes iff no more than all but six of them
have gone with files. A request for a file is always answered, and the file is sent whole iff
no more than all but four have: from then on the answer to every request for a file comes
without it. -/
theorem leaks_add_up {t t' : FdTable} {client client' : ℕ} {s s' : ServerHttp}
    {visits : List Visit} {traces : List (List Event)} (hclient : t.lowest = some client)
    (h : Lives (t.take client) client s visits traces t' client' s') (hthree : 3 ≤ t.free)
    (hcgi : InTime t.free visits) :
    ∃ next, t'.lowest = some next ∧
      (∀ env : Env, ((env.withTable client' (t'.take next)).inputPipe.isSome ∧
          (env.withTable client' (t'.take next)).outputPipe.isSome ↔
        files visits + 6 ≤ t.free)) ∧
      ∀ (c : Visit) (line rest rest' content : Bytes) (lines : List Bytes),
        FirstLine (SIZE - 1) c.sock line rest → Header (SIZE - 1) rest lines rest' →
        ¬ IsCgi line → IsFile c.env (resourcePath (resource line)) content → content ≠ [] →
          ∃ w, Returns (accept (c.env.withTable client' (t'.take next))) ⟨c.sock, s', []⟩ () w ∧
            (SendsWhole w.trace content ↔ files visits + 4 ≤ t.free) := by
  have hstart := free_take_next hclient
  have hmem : client ∈ (t.take client).used :=
    (mem_take (lowest_eq_some hclient).1).mpr (Or.inl rfl)
  have hfree := (free_lives h hmem (by omega) (by rwa [hstart])).1
  obtain ⟨next, hnext⟩ := Option.isSome_iff_exists.mp (t'.lowest_isSome_iff.mpr (by omega))
  have hone := free_take_next hnext
  refine ⟨next, hnext, fun env => ?_, ?_⟩
  · have hin := (t'.take next).lowestTwo_isSome_iff
    have hout := (t'.take next).takeLowest.takeLowest.lowestTwo_isSome_iff
    rw [free_takeLowest, free_takeLowest] at hout
    simp only [Env.withTable]
    by_cases hpipe : 2 ≤ (t'.take next).free
    · rw [if_pos (hin.mpr hpipe), hin, hout]
      omega
    · constructor
      · intro hpipes
        exact absurd (hin.mp hpipes.1) hpipe
      · intro hle
        omega
  · intro c line rest rest' content lines hfirst hheader hline hfile hne
    obtain ⟨w, hreturns, hwhole⟩ :=
      answers_file (by omega) hnext hfirst hheader hline hfile hne s'
    exact ⟨w, hreturns, hwhole.trans (by omega)⟩

/-- Somebody who asks for the file `htdocs/a`. -/
def asksForA : Visit where
  env := fileEnv
  sock := bytes "GET /a HTTP/1.0" ++ [CR, LF, CR, LF]

/-- Four descriptors are free. -/
def fourFree : FdTable where
  limit := 8
  used := {0, 1, 2, 3}
  used_lt := by decide

theorem firstLine_asksForA :
    FirstLine (SIZE - 1) asksForA.sock (bytes "GET /a HTTP/1.0" ++ [LF]) [CR, LF] :=
  .ended (by decide) (ordinary_of_all (by decide)) (by decide) [LF, CR, LF]

theorem isFile_asksForA : IsFile asksForA.env
    (resourcePath (resource (bytes "GET /a HTTP/1.0" ++ [LF]))) (bytes "x") := by
  have hpath : resourcePath (resource (bytes "GET /a HTTP/1.0" ++ [LF])) = bytes "htdocs/a" := by
    decide +kernel
  rw [hpath]
  simp [IsFile, asksForA, fileEnv]

/-- The second one who asks for it does not get it. -/
theorem leaks_add_up_example :
    ∃ traces t' client' s',
      Lives (fourFree.take 4) 4 ServerHttp.init [asksForA] traces t' client' s' ∧
      ∃ next w, t'.lowest = some next ∧
        Returns (accept (asksForA.env.withTable client' (t'.take next)))
          ⟨asksForA.sock, s', []⟩ () w ∧ ¬ SendsWhole w.trace (bytes "x") := by
  have hheader := header_empty_line SIZE_sub_one_pos []
  have hcgi : ¬ IsCgi (bytes "GET /a HTTP/1.0" ++ [LF]) := by decide
  have hwaits : (fourFree.take 4).lowest = some 5 := by decide
  obtain ⟨w, hreturns, -⟩ := answers_file (by decide) hwaits firstLine_asksForA hheader hcgi
    isFile_asksForA (by decide) ServerHttp.init
  have hlives := Lives.cons (c := asksForA) hwaits hreturns .nil
  have hread := (readLine_eq_some_iff SIZE_sub_one_pos _ _ _).mpr firstLine_asksForA
  have hasks : asksForA.asksCgi = false := by
    rw [Visit.asksCgi, hread]
    exact decide_eq_false hcgi
  have hfiles : files [asksForA] = 1 := by
    have hsome : (asksForA.env.node (resourcePath (resource (bytes "GET /a HTTP/1.0" ++
        [LF])))).isSome = true := by
      rw [show asksForA.env.node _ = _ from isFile_asksForA]
      rfl
    rw [files, List.countP_singleton, Visit.asksFile, hread]
    simp only [hcgi, hsome, decide_false, Bool.not_false, Bool.true_and, if_true]
  have hintime : InTime fourFree.free [asksForA] := by
    intro before c after heq hc
    have hmem : c ∈ [asksForA] := heq ▸ List.mem_append_right _ List.mem_cons_self
    rw [List.mem_singleton.mp hmem, hasks] at hc
    cases hc
  obtain ⟨next, hnext, -, hall⟩ := leaks_add_up rfl hlives (by decide) hintime
  obtain ⟨w', hreturns', hwhole⟩ := hall asksForA _ _ _ _ _ firstLine_asksForA hheader hcgi
    isFile_asksForA (by decide)
  refine ⟨_, _, _, _, hlives, next, w', hnext, hreturns', fun hsends => ?_⟩
  have hle := hwhole.mp hsends
  rw [hfiles] at hle
  exact absurd hle (by decide)

end FacePerception.Server
