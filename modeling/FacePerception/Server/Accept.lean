import FacePerception.Lib.Proc
import FacePerception.Server.Header
import FacePerception.Server.Request
import FacePerception.Server.Store

/-!
# `Accept`

Model of `Accept` and of what it calls to answer one request
(`server/server_http.h`, lines 230–277, 354–373, 391–538 and 607–657), in the
thread that runs it. What the operating system answers is an `Env`; what the
server does to the outside is the `trace` of the `World`.

The assertions of `get_line` and `get_path_method_query` are about the caller's own
arrays and their `sizeof`, so only the one of `get_string` can fail. `send` and
`write` are taken to succeed; `Survives` says when SIGPIPE comes instead. The lines
written to `cout` are left out, except those a child writes when its output is
already the pipe.

Results:
* `returns_execGetFile`, `dies_execGetFile`: serving a file.
* `returns_cgiExchange`, `dies_cgiExchange`: answering with a CGI program.
* `returns_execCgi`, `dies_execCgi`, `returns_execGet`, `dies_execGet`: the two
  kinds of request.
-/

namespace FacePerception.Server

open CString Proc

/-! ## The system around a request -/

/-- What a path names. -/
inductive Node
  | file (readable : Bool) (content : Bytes)
  | dir (readable : Bool) (size : ℕ)

def Node.isDir : Node → Bool
  | .file _ _ => false
  | .dir _ _ => true

def Node.readable : Node → Bool
  | .file readable _ => readable
  | .dir readable _ => readable

/-- `st_size`. -/
def Node.size : Node → ℕ
  | .file _ content => content.length
  | .dir _ size => size

/-- What the system answers while one request is handled. Descriptors are `none`
where the call fails although the file is there. `program` is the CGI program at a
path: what it writes, given the strings put into its environment and its standard
input. `ch` is what the uninitialised `ch` of line 507 holds. -/
structure Env where
  lib : TimeLib
  clock : ℤ
  node : Bytes → Option Node
  client : ℕ
  fopenFd : Option ℕ
  openFd : Option ℕ
  inputPipe : Option (ℕ × ℕ)
  outputPipe : Option (ℕ × ℕ)
  forks : Bool
  program : Bytes → List Bytes → Bytes → Bytes
  ch : UInt8

/-- `path` can be opened for reading. -/
def Env.canRead (env : Env) (path : Bytes) : Bool := (env.node path).any Node.readable

/-- `fopen(path,"r")`. -/
def Env.fopen (env : Env) (path : Bytes) : Option ℕ :=
  if env.canRead path then env.fopenFd else none

/-- `open(path,O_RDONLY)`. -/
def Env.openFile (env : Env) (path : Bytes) : Option ℕ :=
  if env.canRead path then env.openFd else none

/-- A system with no file under `htdocs` and with everything else in order. -/
def bareEnv : Env where
  lib := TimeLib.utc
  clock := 0
  node _ := none
  client := 4
  fopenFd := some 5
  openFd := some 6
  inputPipe := some (7, 8)
  outputPipe := some (9, 10)
  forks := true
  program _ _ _ := []
  ch := 0

/-- What the server does to the outside. -/
inductive Event
  /-- Bytes sent to the client. -/
  | sent (bs : Bytes)
  | opened (fd : ℕ)
  | closed (fd : ℕ)
  | written (fd : ℕ) (c : UInt8)
deriving DecidableEq

/-- The bytes the client still sends, the check-in store, and what the request has
done so far. -/
structure World where
  sock : Bytes
  server : ServerHttp
  trace : List Event

/-- How a request can end the process, the signals apart. -/
inductive Death
  /-- `assert(query !=NULL && n>0)` (line 58). -/
  | assertGetString
  /-- `fclose(NULL)` (line 276). -/
  | fcloseNull
  /-- `exit(1)` in the parent (line 462). -/
  | exit
deriving DecidableEq

def emit (es : List Event) : Proc World Death Unit :=
  modify fun w => { w with trace := w.trace ++ es }

/-- A function that reads from the client, run on the client's stream. -/
def onSock {α : Type} (f : Bytes → Computation (α × Bytes)) : Proc World Death α :=
  onPart World.sock (fun sock w => { w with sock := sock }) f

/-! ## Static files -/

def openedEvents (fd : Option ℕ) : List Event := (fd.map Event.opened).toList

/-- `sendfile(client,fd,NULL,size)` for the file at `path`: directories cannot be
sent. -/
def sendfileEvents (env : Env) (fd : Option ℕ) (path : Bytes) (size : ℕ) : List Event :=
  match fd, env.node path with
  | some _, some (.file _ content) => [.sent (content.take size)]
  | _, _ => []

/-- `send_header` (lines 230–256). -/
def sendHeader (env : Env) (path : Bytes) (size : ℕ) : Proc World Death Unit := do
  let fd := env.openFile path
  emit (openedEvents fd)
  emit [.sent (bytes "HTTP/1.0 200 OK" ++ [CR, LF])]
  emit [.sent SERVER_STRING]
  emit [.sent (bytes "Content-Type:text/html" ++ [CR, LF])]
  emit [.sent [CR, LF]]
  emit (sendfileEvents env fd path size)

/-- `fclose(file)`. -/
def fclose (file : Option ℕ) : Proc World Death Unit :=
  match file with
  | none => throw .fcloseNull
  | some fd => emit [.closed fd]

/-- `exec_get_file` (lines 257–277). -/
def execGetFile (env : Env) (path : Bytes) (size : ℕ) : Proc World Death Unit := do
  onSock getFileHeader
  let file := env.fopen path
  emit (openedEvents file)
  if file.isSome then sendHeader env path size else pure ()
  fclose file

/-- `exec_get` (lines 354–373). -/
def execGet (env : Env) (path : Bytes) : Proc World Death Unit :=
  match env.node path with
  | none => pure ()
  | some st => execGetFile env (if st.isDir then directoryPath path else path) st.size

/-! ## CGI programs -/

/-- What the child of `exec_cgi` does before its `execl` (lines 475–498): the
strings it puts into the environment, and what it prints on the pipe. -/
structure Child where
  env : List Bytes
  printed : Bytes

/-- The child of `exec_cgi` (lines 475–498). -/
def execCgiChild (method query : Bytes) (contentLength : ℤ) : Child :=
  if method = bytes "GET" then
    { env := [methodEnv method, queryEnv query],
      printed := bytes " GET  query env :" ++ queryEnv query ++ [LF] }
  else
    { env := [methodEnv method, contentLenEnv contentLength],
      printed := bytes " POST  content len env :" ++ contentLenEnv contentLength ++ [LF] }

/-- What comes out of `cgi_output` when `body` has gone into `cgi_input`. -/
def cgiText (env : Env) (path method query : Bytes) (contentLength : ℤ) (body : Bytes) :
    Bytes :=
  let child := execCgiChild method query contentLength
  match env.outputPipe with
  | none => []
  | some _ =>
    child.printed ++ env.program path child.env (if env.inputPipe.isSome then body else [])

/-- The loop of lines 513–517: what it writes and what is left to read. Where
`recv` has nothing left, `ch` keeps its value. -/
def copyBody : ℕ → UInt8 → Bytes → Bytes × Bytes
  | 0, _, sock => ([], sock)
  | n + 1, ch, sock =>
    let (_, ch, sock) := recv ch sock
    let (out, sock) := copyBody n ch sock
    (ch :: out, sock)

/-- The header of a CGI answer (lines 425–439). -/
def cgiHeaderEvents : List Event :=
  [.sent (bytes "HTTP/1.1 200 OK" ++ [CR, LF, CR, LF]), .sent SERVER_STRING,
    .sent (bytes "Content-Type:text/html" ++ [CR, LF]), .sent [CR, LF]]

/-- `cgi_input` and `cgi_output` behind the calls of `pipe`: `{0,0}` where they
failed. -/
def Env.cgiInput (env : Env) : ℕ × ℕ := env.inputPipe.getD (0, 0)
def Env.cgiOutput (env : Env) : ℕ × ℕ := env.outputPipe.getD (0, 0)

/-- Lines 443–452. -/
def pipeEvents (env : Env) : List Event :=
  (if env.inputPipe.isSome then [.opened env.cgiInput.1, .opened env.cgiInput.2] else []) ++
    if env.outputPipe.isSome then [.opened env.cgiOutput.1, .opened env.cgiOutput.2]
    else [.closed env.cgiInput.1, .closed env.cgiInput.2]

/-- The `for` loop of lines 513–517, as far as it reads. -/
def readBody (env : Env) (contentLength : ℤ) : Proc World Death Bytes :=
  onSock fun sock => Computation.pure (copyBody contentLength.toNat env.ch sock)

/-- The father's branch of `exec_cgi` (lines 501–528). -/
def cgiFather (env : Env) (path method query : Bytes) (contentLength : ℤ) :
    Proc World Death Unit := do
  emit [.closed env.cgiInput.1, .closed env.cgiOutput.2]
  let body ← if strcaseEq method (bytes "POST") then readBody env contentLength else pure []
  emit (body.map fun c => .written env.cgiInput.2 c)
  emit ((cgiText env path method query contentLength body).map fun c => .sent [c])
  emit [.closed env.cgiInput.2, .closed env.cgiOutput.1]

/-- `exec_cgi` behind the request's headers (lines 425–528). -/
def cgiExchange (env : Env) (path method query : Bytes) (contentLength : ℤ) :
    Proc World Death Unit := do
  emit cgiHeaderEvents
  emit (pipeEvents env)
  if env.forks then cgiFather env path method query contentLength
  else do
    emit [.closed env.cgiInput.1, .closed env.cgiInput.2, .closed env.cgiOutput.1,
      .closed env.cgiOutput.2]
    throw .exit

/-- `exec_cgi` (lines 391–529). -/
def execCgi (env : Env) (path method query : Bytes) : Proc World Death Unit :=
  if method = bytes "GET" then do
    onSock clearHead
    cgiExchange env path method query 0
  else do
    let contentLength ← onSock postHeader
    if contentLength = -1 then pure ()
    else cgiExchange env path method query contentLength

/-- `send_vector(query)` on `server_class`. -/
def sendVectorProc (env : Env) (query : Bytes) : Proc World Death Unit := do
  let w ← get
  match sendVector env.lib ⟨query, env.clock⟩ w.server with
  | none => throw .assertGetString
  | some server => modify fun w => { w with server := server }

/-- `exec_post` (lines 530–538). -/
def execPost (env : Env) (path method query : Bytes) : Proc World Death Unit := do
  sendVectorProc env query
  execCgi env path method query

/-! ## `Accept` -/

/-- The two branches of `Accept`, up to their `close(sock)` (lines 640–654). -/
def answer (env : Env) (buf : Bytes) : Proc World Death Unit :=
  let r := getPathMethodQuery buf
  if r.cgi then execPost env r.path r.method r.query else execGet env r.path

/-- `Accept` (lines 608–657). What `get_line` returns is never -1. -/
def accept (env : Env) : Proc World Death Unit := do
  let buf ← onSock (getLine SIZE)
  answer env buf
  emit [.closed env.client]

/-! ## What each part does -/

@[simp] theorem returns_emit (es : List Event) (u : Unit) (w w' : World) :
    Returns (emit es) w u w' ↔ w' = { w with trace := w.trace ++ es } :=
  returns_modify _ u w w'

@[simp] theorem dies_emit (es : List Event) (w w' : World) (e : Death) :
    ¬ Dies (emit es) w e w' := dies_modify _ w w' e

theorem returns_onSock {α : Type} (f : Bytes → Computation (α × Bytes)) (a : α)
    (w w' : World) :
    Returns (onSock f) w a w' ↔ ∃ sock, (a, sock) ∈ f w.sock ∧ w' = { w with sock := sock } :=
  returns_onPart _ _ f a w w'

@[simp] theorem dies_onSock {α : Type} (f : Bytes → Computation (α × Bytes)) (e : Death)
    (w w' : World) : ¬ Dies (onSock f) w e w' :=
  dies_onPart _ _ f e w w'

theorem emit_apply (es : List Event) (w : World) :
    emit es w = Computation.pure (Except.ok (), { w with trace := w.trace ++ es }) :=
  call_modify _ w

theorem emit_bind_apply {β : Type} (es : List Event) (k : Unit → Proc World Death β)
    (w : World) : (emit es >>= k) w = k () { w with trace := w.trace ++ es } := by
  show Computation.bind (emit es w) _ = _
  rw [emit_apply, Computation.ret_bind]
  rfl

/-- What is emitted in a row is emitted at once. -/
theorem emit_bind_emit (es es' : List Event) :
    (emit es >>= fun _ => emit es') = emit (es ++ es') := by
  funext w
  rw [emit_bind_apply, emit_apply, emit_apply, List.append_assoc]

/-- What `send_header` sends. -/
def headerEvents (env : Env) (path : Bytes) (size : ℕ) : List Event :=
  openedEvents (env.openFile path) ++
    [.sent (bytes "HTTP/1.0 200 OK" ++ [CR, LF]), .sent SERVER_STRING,
      .sent (bytes "Content-Type:text/html" ++ [CR, LF]), .sent [CR, LF]] ++
    sendfileEvents env (env.openFile path) path size

theorem sendHeader_eq (env : Env) (path : Bytes) (size : ℕ) :
    sendHeader env path size = emit (headerEvents env path size) := by
  simp only [sendHeader, emit_bind_emit, headerEvents, List.append_assoc,
    List.cons_append, List.nil_append]

/-- `exec_get_file` when `fopen` gives it `fd`. -/
theorem execGetFile_of_some {env : Env} {path : Bytes} {fd : ℕ} (h : env.fopen path = some fd)
    (size : ℕ) : execGetFile env path size =
      onSock getFileHeader >>= fun _ =>
        emit (.opened fd :: headerEvents env path size ++ [.closed fd]) := by
  simp only [execGetFile, h, fclose, sendHeader_eq, emit_bind_emit, openedEvents,
    Option.isSome_some, if_true, Option.map_some, Option.toList_some, List.cons_append,
    List.nil_append]

/-- `exec_get_file` when `fopen` fails. -/
theorem execGetFile_of_none {env : Env} {path : Bytes} (h : env.fopen path = none)
    (size : ℕ) : execGetFile env path size =
      onSock getFileHeader >>= fun _ => throw .fcloseNull := by
  have hnil : ∀ {β : Type} (k : Unit → Proc World Death β), (emit [] >>= k) = k () := by
    intro β k
    funext w
    rw [emit_bind_apply, List.append_nil]
  simp only [execGetFile, h, fclose, openedEvents, Option.isSome_none, Option.map_none,
    Option.toList_none, hnil, Bool.false_eq_true, if_false]

@[simp] theorem returns_readBody (env : Env) (contentLength : ℤ) (body : Bytes)
    (w w' : World) :
    Returns (readBody env contentLength) w body w' ↔
      body = (copyBody contentLength.toNat env.ch w.sock).1 ∧
        w' = { w with sock := (copyBody contentLength.toNat env.ch w.sock).2 } := by
  rw [readBody, returns_onSock]
  constructor
  · rintro ⟨sock, h, rfl⟩
    rw [← (Computation.mem_pure_iff _ _).mp h]
    exact ⟨rfl, rfl⟩
  · rintro ⟨rfl, rfl⟩
    exact ⟨_, Computation.ret_mem _, rfl⟩

@[simp] theorem dies_readBody (env : Env) (contentLength : ℤ) (w w' : World) (e : Death) :
    ¬ Dies (readBody env contentLength) w e w' := dies_onSock _ e w w'

@[simp] theorem returns_getLine (buf : Bytes) (w w' : World) :
    Returns (onSock (getLine SIZE)) w buf w' ↔
      ∃ rest, readLine (SIZE - 1) w.sock = some (buf, rest) ∧ w' = { w with sock := rest } := by
  simp only [returns_onSock, mem_getLine_SIZE]

@[simp] theorem returns_getFileHeader (u : Unit) (w w' : World) :
    Returns (onSock getFileHeader) w u w' ↔
      ∃ rest, (∃ lines, Header (SIZE - 1) w.sock lines rest) ∧ w' = { w with sock := rest } := by
  simp only [returns_onSock, ← mem_getFileHeader_iff]

@[simp] theorem returns_clearHead (u : Unit) (w w' : World) :
    Returns (onSock clearHead) w u w' ↔
      ∃ rest, (∃ lines, Header (SIZE - 1) w.sock lines rest) ∧ w' = { w with sock := rest } := by
  simp only [returns_onSock, ← mem_clearHead_iff]

@[simp] theorem returns_postHeader (contentLength : ℤ) (w w' : World) :
    Returns (onSock postHeader) w contentLength w' ↔
      ∃ rest, (∃ lines, Header (SIZE - 1) w.sock lines rest ∧
        contentLength = lines.foldl takeContentLength 0) ∧ w' = { w with sock := rest } := by
  simp only [returns_onSock, mem_postHeader_iff]

/-- What the father's branch reads, and what is left to read. -/
def copied (env : Env) (method : Bytes) (contentLength : ℤ) (sock : Bytes) : Bytes × Bytes :=
  if strcaseEq method (bytes "POST") then copyBody contentLength.toNat env.ch sock else ([], sock)

/-- The events of a CGI exchange whose fork succeeds. -/
def exchangeEvents (env : Env) (path method query : Bytes) (contentLength : ℤ) (body : Bytes) :
    List Event :=
  cgiHeaderEvents ++ pipeEvents env ++ [.closed env.cgiInput.1, .closed env.cgiOutput.2] ++
    (body.map fun c => .written env.cgiInput.2 c) ++
    ((cgiText env path method query contentLength body).map fun c => .sent [c]) ++
    [.closed env.cgiInput.2, .closed env.cgiOutput.1]

/-- The world after a CGI exchange whose fork succeeds. -/
def exchanged (env : Env) (path method query : Bytes) (contentLength : ℤ) (w : World) : World where
  sock := (copied env method contentLength w.sock).2
  server := w.server
  trace := w.trace ++ exchangeEvents env path method query contentLength
    (copied env method contentLength w.sock).1

/-- **A CGI exchange** returns if the fork succeeds. -/
theorem returns_cgiExchange (env : Env) (path method query : Bytes) (contentLength : ℤ)
    (u : Unit) (w w' : World) :
    Returns (cgiExchange env path method query contentLength) w u w' ↔
      env.forks = true ∧ w' = exchanged env path method query contentLength w := by
  unfold cgiExchange exchanged exchangeEvents copied
  cases env.forks with
  | false => simp [returns_bind]
  | true =>
    unfold cgiFather
    by_cases hpost : strcaseEq method (bytes "POST") = true
    · simp [hpost, returns_bind, List.append_assoc]
    · simp [hpost, returns_bind, List.append_assoc]

/-- The events of a CGI exchange whose fork fails. -/
def exitEvents (env : Env) : List Event :=
  cgiHeaderEvents ++ pipeEvents env ++ [.closed env.cgiInput.1, .closed env.cgiInput.2,
    .closed env.cgiOutput.1, .closed env.cgiOutput.2]

/-- And calls `exit` otherwise. -/
theorem dies_cgiExchange (env : Env) (path method query : Bytes) (contentLength : ℤ) (e : Death)
    (w w' : World) :
    Dies (cgiExchange env path method query contentLength) w e w' ↔
      env.forks = false ∧ e = .exit ∧ w' = { w with trace := w.trace ++ exitEvents env } := by
  unfold cgiExchange exitEvents
  cases env.forks with
  | false => simp [dies_bind, List.append_assoc]
  | true =>
    unfold cgiFather
    by_cases hpost : strcaseEq method (bytes "POST") = true
    · simp [hpost, dies_bind]
    · simp [hpost, dies_bind]

theorem returns_execGetFile (env : Env) (path : Bytes) (size : ℕ) (u : Unit) (w w' : World) :
    Returns (execGetFile env path size) w u w' ↔
      ∃ lines rest fd, Header (SIZE - 1) w.sock lines rest ∧ env.fopen path = some fd ∧
        w' = { sock := rest, server := w.server,
               trace := w.trace ++ .opened fd :: headerEvents env path size ++ [.closed fd] } := by
  cases h : env.fopen path with
  | none => simp [execGetFile_of_none h, returns_bind]
  | some fd =>
    simp only [execGetFile_of_some h, returns_bind, returns_getFileHeader, returns_emit]
    constructor
    · rintro ⟨-, t, ⟨rest, ⟨lines, hheader⟩, rfl⟩, rfl⟩
      exact ⟨lines, rest, fd, hheader, rfl, by simp⟩
    · rintro ⟨lines, rest, fd', hheader, heq, rfl⟩
      cases heq
      exact ⟨(), _, ⟨rest, ⟨lines, hheader⟩, rfl⟩, by simp⟩

theorem dies_execGetFile (env : Env) (path : Bytes) (size : ℕ) (e : Death) (w : World) :
    (∃ w', Dies (execGetFile env path size) w e w') ↔
      (∃ lines rest, Header (SIZE - 1) w.sock lines rest) ∧ env.fopen path = none ∧
        e = .fcloseNull := by
  cases h : env.fopen path with
  | none =>
    simp only [execGetFile_of_none h, dies_bind, dies_onSock, returns_getFileHeader, dies_throw,
      false_or]
    constructor
    · rintro ⟨w', -, t, ⟨rest, ⟨lines, hheader⟩, rfl⟩, rfl, rfl⟩
      exact ⟨⟨lines, rest, hheader⟩, trivial, rfl⟩
    · rintro ⟨⟨lines, rest, hheader⟩, -, rfl⟩
      exact ⟨_, (), _, ⟨rest, ⟨lines, hheader⟩, rfl⟩, rfl, rfl⟩
  | some fd => simp [execGetFile_of_some h, dies_bind]

/-- **`exec_get`** answers whatever `stat` cannot find with nothing. -/
theorem returns_execGet (env : Env) (path : Bytes) (u : Unit) (w w' : World) :
    Returns (execGet env path) w u w' ↔
      (env.node path = none ∧ w' = w) ∨
        ∃ st, env.node path = some st ∧
          Returns (execGetFile env (if st.isDir then directoryPath path else path) st.size)
            w u w' := by
  unfold execGet
  cases env.node path with
  | none => simp
  | some st => simp

theorem dies_execGet (env : Env) (path : Bytes) (e : Death) (w w' : World) :
    Dies (execGet env path) w e w' ↔
      ∃ st, env.node path = some st ∧
        Dies (execGetFile env (if st.isDir then directoryPath path else path) st.size)
          w e w' := by
  unfold execGet
  cases env.node path with
  | none => simp
  | some st => simp

/-- What `content_length` is behind the header lines. -/
def contentLengthOf (method : Bytes) (lines : List Bytes) : ℤ :=
  if method = bytes "GET" then 0 else lines.foldl takeContentLength 0

/-- **`exec_cgi`** reads the headers and gives up on a content length of -1. -/
theorem returns_execCgi (env : Env) (path method query : Bytes) (u : Unit) (w w' : World) :
    Returns (execCgi env path method query) w u w' ↔
      ∃ lines rest, Header (SIZE - 1) w.sock lines rest ∧
        ((contentLengthOf method lines = -1 ∧ w' = { w with sock := rest }) ∨
          contentLengthOf method lines ≠ -1 ∧ env.forks = true ∧
            w' = exchanged env path method query (contentLengthOf method lines)
              { w with sock := rest }) := by
  unfold execCgi contentLengthOf
  by_cases hget : method = bytes "GET"
  · simp only [if_pos hget, returns_bind, returns_clearHead, returns_cgiExchange]
    constructor
    · rintro ⟨-, t, ⟨rest, ⟨lines, hheader⟩, rfl⟩, hforks, rfl⟩
      exact ⟨lines, rest, hheader, Or.inr ⟨by norm_num, hforks, rfl⟩⟩
    · rintro ⟨lines, rest, hheader, ⟨h, -⟩ | ⟨-, hforks, rfl⟩⟩
      · norm_num at h
      · exact ⟨(), _, ⟨rest, ⟨lines, hheader⟩, rfl⟩, hforks, rfl⟩
  · simp only [if_neg hget, returns_bind, returns_postHeader]
    constructor
    · rintro ⟨n, t, ⟨rest, ⟨lines, hheader, rfl⟩, rfl⟩, hrest⟩
      refine ⟨lines, rest, hheader, ?_⟩
      split_ifs at hrest with h
      · exact Or.inl ⟨h, ((returns_pure _ _ _ _).mp hrest).2⟩
      · exact Or.inr ⟨h, (returns_cgiExchange _ _ _ _ _ _ _ _).mp hrest⟩
    · rintro ⟨lines, rest, hheader, hrest⟩
      refine ⟨_, _, ⟨rest, ⟨lines, hheader, rfl⟩, rfl⟩, ?_⟩
      rcases hrest with ⟨h, rfl⟩ | ⟨h, hforks, rfl⟩
      · rw [if_pos h]
        exact (returns_pure _ _ _ _).mpr ⟨rfl, rfl⟩
      · rw [if_neg h]
        exact (returns_cgiExchange _ _ _ _ _ _ _ _).mpr ⟨hforks, rfl⟩

theorem dies_execCgi (env : Env) (path method query : Bytes) (e : Death) (w w' : World) :
    Dies (execCgi env path method query) w e w' ↔
      ∃ lines rest, Header (SIZE - 1) w.sock lines rest ∧ contentLengthOf method lines ≠ -1 ∧
        env.forks = false ∧ e = .exit ∧
        w' = { sock := rest, server := w.server, trace := w.trace ++ exitEvents env } := by
  unfold execCgi contentLengthOf
  by_cases hget : method = bytes "GET"
  · simp only [if_pos hget, dies_bind, dies_onSock, returns_clearHead, dies_cgiExchange, false_or]
    constructor
    · rintro ⟨-, t, ⟨rest, ⟨lines, hheader⟩, rfl⟩, hexit⟩
      exact ⟨lines, rest, hheader, by norm_num, hexit⟩
    · rintro ⟨lines, rest, hheader, -, hexit⟩
      exact ⟨(), _, ⟨rest, ⟨lines, hheader⟩, rfl⟩, hexit⟩
  · simp only [if_neg hget, dies_bind, dies_onSock, returns_postHeader, false_or]
    constructor
    · rintro ⟨n, t, ⟨rest, ⟨lines, hheader, rfl⟩, rfl⟩, hdies⟩
      split_ifs at hdies with h
      · exact absurd hdies (dies_pure _ _ _ _)
      · exact ⟨lines, rest, hheader, h, (dies_cgiExchange _ _ _ _ _ _ _ _).mp hdies⟩
    · rintro ⟨lines, rest, hheader, h, hexit⟩
      refine ⟨_, _, ⟨rest, ⟨lines, hheader, rfl⟩, rfl⟩, ?_⟩
      rw [if_neg h]
      exact (dies_cgiExchange _ _ _ _ _ _ _ _).mpr hexit

theorem returns_sendVectorProc (env : Env) (query : Bytes) (u : Unit) (w w' : World) :
    Returns (sendVectorProc env query) w u w' ↔
      ∃ server, sendVector env.lib ⟨query, env.clock⟩ w.server = some server ∧
        w' = { w with server := server } := by
  simp only [sendVectorProc, returns_bind, returns_get]
  constructor
  · rintro ⟨a, t, ⟨ha, ht⟩, h⟩
    rw [ha, ht] at h
    cases hsend : sendVector env.lib ⟨query, env.clock⟩ w.server with
    | none => simp [hsend] at h
    | some server =>
      simp only [hsend, returns_modify] at h
      exact ⟨server, rfl, h⟩
  · rintro ⟨server, hsend, rfl⟩
    refine ⟨w, w, ⟨rfl, rfl⟩, ?_⟩
    simp only [hsend, returns_modify]

theorem dies_sendVectorProc (env : Env) (query : Bytes) (e : Death) (w w' : World) :
    Dies (sendVectorProc env query) w e w' ↔
      sendVector env.lib ⟨query, env.clock⟩ w.server = none ∧ e = .assertGetString ∧ w' = w := by
  simp only [sendVectorProc, dies_bind, dies_get, returns_get, false_or]
  constructor
  · rintro ⟨a, t, ⟨ha, ht⟩, h⟩
    rw [ha, ht] at h
    cases hsend : sendVector env.lib ⟨query, env.clock⟩ w.server with
    | none =>
      simp only [hsend, dies_throw] at h
      exact ⟨rfl, h⟩
    | some server => simp [hsend] at h
  · rintro ⟨hsend, rfl, rfl⟩
    refine ⟨w', w', ⟨rfl, rfl⟩, ?_⟩
    simp [hsend]

/-- `send_vector` fails its assertion on the empty query only. -/
theorem sendVector_eq_none_iff (lib : TimeLib) (c : Scan) (s : ServerHttp) :
    sendVector lib c s = none ↔ strlen c.query = 0 := by
  constructor
  · intro h
    by_contra hne
    rw [sendVector_eq lib c s (by omega)] at h
    cases h
  · intro h
    rw [sendVector, if_neg (by omega)]

end FacePerception.Server
