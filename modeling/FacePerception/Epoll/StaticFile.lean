import FacePerception.Lib.CNum
import FacePerception.Epoll.GetLine
import FacePerception.Server.StaticFile

/-!
# Static files of the epoll server

Models of `send_header`, `exec_get_file` and `exec_get` (`server/server.h`, lines 126–178).
They do as those of `server_http.h`, but the size of the file is passed as an `int`, and the
sockets are non-blocking (lines 239–260). `sendfile` is taken to send all it is asked for:
the client reads fast enough, or the file fits into the buffer of the socket.

Results:
* `returns_execGetFile`: what serving a file does.
* `execGet_whole_iff`: when the two servers send the whole file.
-/

namespace FacePerception.Epoll

open CString CNum Proc
open FacePerception.Server (Env Node Event Death SERVER_STRING directoryPath openedEvents
  sendfileEvents openedPath IsFile SendsWhole Covers fileMessage fileBody sentBytes
  sentBytes_served sendsWhole_fileMessage_iff fileBody_eq_iff indexEnv
  indexEnv_node isFile_indexEnv not_covers_indexEnv)

/-- What is to come from the client, and what the worker has done so far. -/
structure World where
  sock : Schedule
  trace : List Event

def emit (es : List Event) : Proc World Death Unit :=
  modify fun w => { w with trace := w.trace ++ es }

/-- A function that reads from the client, run on the client's schedule. -/
def onSock {α : Type} (f : Schedule → Computation (α × Schedule)) : Proc World Death α :=
  onPart World.sock (fun sock w => { w with sock := sock }) f

/-! ## Serving a file -/

/-- `send_header` (lines 126–147). `sendfile` takes a `size_t`. -/
def sendHeader (env : Env) (path : Bytes) (size : ℤ) : Proc World Death Unit := do
  let fd := env.openFile path
  emit (openedEvents fd)
  emit [.sent (bytes "HTTP/1.0 200 OK" ++ [CR, LF])]
  emit [.sent SERVER_STRING]
  emit [.sent (bytes "COntent-Type:text/html" ++ [CR, LF])]
  emit [.sent [CR, LF]]
  emit (sendfileEvents env fd path (intToSizeT size))

/-- The variables of `exec_get_file`'s loop. -/
structure GetFileState where
  num : ℤ
  buf : Bytes
  sock : Schedule

/-- One turn of the `while` loop of `exec_get_file` (lines 154–155). -/
def getFileTurn (s : GetFileState) : Computation (Schedule ⊕ GetFileState) :=
  if s.num > 0 ∧ cstr s.buf ≠ [LF] then
    (fun r => Sum.inr ⟨r.1.length, r.1, r.2⟩) <$> getLine SIZE s.sock
  else pure (Sum.inl s.sock)

/-- The header loop of `exec_get_file` (lines 151–155). -/
def getFileHeader (sock : Schedule) : Computation (Unit × Schedule) :=
  (fun rest => ((), rest)) <$> Computation.loop getFileTurn ⟨1, [], sock⟩

/-- `fclose(file)`. -/
def fclose (file : Option ℕ) : Proc World Death Unit :=
  match file with
  | none => throw .fcloseNull
  | some fd => emit [.closed fd]

/-- `exec_get_file` (lines 149–163). -/
def execGetFile (env : Env) (path : Bytes) (size : ℤ) : Proc World Death Unit := do
  onSock getFileHeader
  let file := env.fopen path
  emit (openedEvents file)
  if file.isSome then sendHeader env path size else pure ()
  fclose file

/-- `exec_get` (lines 164–178). -/
def execGet (env : Env) (path : Bytes) : Proc World Death Unit :=
  match env.node path with
  | none => pure ()
  | some st =>
    execGetFile env (if st.isDir then directoryPath path else path) (longToInt st.size)

/-! ## What each part does -/

@[simp] theorem returns_emit (es : List Event) (u : Unit) (w w' : World) :
    Returns (emit es) w u w' ↔ w' = { w with trace := w.trace ++ es } :=
  returns_modify _ u w w'

theorem returns_onSock {α : Type} (f : Schedule → Computation (α × Schedule)) (a : α)
    (w w' : World) :
    Returns (onSock f) w a w' ↔ ∃ sock, (a, sock) ∈ f w.sock ∧ w' = { w with sock := sock } :=
  returns_onPart _ _ f a w w'

/-- What `send_header` does. -/
def headerEvents (env : Env) (path : Bytes) (size : ℤ) : List Event :=
  openedEvents (env.openFile path) ++
    [.sent (bytes "HTTP/1.0 200 OK" ++ [CR, LF]), .sent SERVER_STRING,
      .sent (bytes "COntent-Type:text/html" ++ [CR, LF]), .sent [CR, LF]] ++
    sendfileEvents env (env.openFile path) path (intToSizeT size)

theorem returns_sendHeader (env : Env) (path : Bytes) (size : ℤ) (u : Unit) (w w' : World) :
    Returns (sendHeader env path size) w u w' ↔
      w' = { w with trace := w.trace ++ headerEvents env path size } := by
  simp [sendHeader, headerEvents, returns_bind]

theorem returns_execGetFile (env : Env) (path : Bytes) (size : ℤ) (u : Unit) (w w' : World) :
    Returns (execGetFile env path size) w u w' ↔
      ∃ rest fd, ((), rest) ∈ getFileHeader w.sock ∧ env.fopen path = some fd ∧
        w' = ⟨rest, w.trace ++ (.opened fd :: headerEvents env path size ++ [.closed fd])⟩ := by
  unfold execGetFile
  cases env.fopen path with
  | none => simp [fclose, returns_bind]
  | some fd =>
    simp only [fclose, openedEvents, Option.isSome_some, if_true, Option.map_some,
      Option.toList_some, returns_bind, returns_onSock, returns_emit, returns_sendHeader]
    constructor
    · rintro ⟨_, _, ⟨rest, hheader, rfl⟩, _, _, rfl, _, _, rfl, rfl⟩
      exact ⟨rest, fd, hheader, rfl, by simp⟩
    · rintro ⟨rest, fd', hheader, heq, rfl⟩
      obtain rfl := Option.some.inj heq
      exact ⟨(), _, ⟨rest, hheader, rfl⟩, (), _, rfl, (), _, rfl, by simp⟩

variable {env : Env} {path content : Bytes}

theorem execGet_of_some {st : Node} (hstat : env.node path = some st) :
    execGet env path = execGetFile env (openedPath path st) (longToInt st.size) := by
  rw [execGet, hstat]
  rfl

theorem sentBytes_headerEvents (hfile : IsFile env path content) (fd : ℕ) (size : ℤ) :
    sentBytes (.opened fd :: headerEvents env path size ++ [.closed fd]) =
      fileMessage (bytes "COntent-Type:text/html") (fileBody env content (intToSizeT size)) :=
  sentBytes_served hfile (by decide +kernel) fd (intToSizeT size)

/-! ## When it is the whole file -/

/-- What `sendfile` gets for the size `n`: the low 32 bits, and ones above them if the
upper of these bits is set. -/
def sizeArg (n : ℕ) : ℕ :=
  if n % 2 ^ 32 < 2 ^ 31 then n % 2 ^ 32 else n % 2 ^ 32 + (2 ^ 64 - 2 ^ 32)

theorem execGet_sendsWhole_iff {st : Node} {w w' : World} {u : Unit} {es : List Event}
    (hstat : env.node path = some st) (hfile : IsFile env (openedPath path st) content)
    (hreturns : Returns (execGet env path) w u w') (htrace : w'.trace = w.trace ++ es) :
    SendsWhole es content ↔ Covers env content (sizeArg st.size) := by
  rw [execGet_of_some hstat] at hreturns
  obtain ⟨rest, fd, -, -, rfl⟩ := (returns_execGetFile _ _ _ _ _ _).mp hreturns
  have hes := List.append_cancel_left htrace
  have hsize : intToSizeT (longToInt st.size) = sizeArg st.size := intToSizeT_longToInt st.size
  rw [← hes, sendsWhole_fileMessage_iff (by decide) (by decide)
    (sentBytes_headerEvents hfile fd (longToInt st.size)), fileBody_eq_iff, hsize]

theorem exists_returns_execGet {st : Node} {w : World} {rest : Schedule} {fd : ℕ}
    (hstat : env.node path = some st) (hfile : IsFile env (openedPath path st) content)
    (hfopen : env.fopenFd = some fd) (hheader : ((), rest) ∈ getFileHeader w.sock) :
    ∃ w' es, Returns (execGet env path) w () w' ∧ w'.trace = w.trace ++ es := by
  have hopened : env.fopen (openedPath path st) = some fd := hfile.fopen.trans hfopen
  rw [execGet_of_some hstat]
  exact ⟨_, _, (returns_execGetFile _ _ _ _ _ _).mpr ⟨rest, fd, hheader, hopened, rfl⟩, rfl⟩

/-- **When the two servers send the whole file.** -/
theorem execGet_whole_iff {st : Node} (hstat : env.node path = some st)
    (hfile : IsFile env (openedPath path st) content) :
    (∀ w u w' es, Returns (Server.execGet env path) w u w' → w'.trace = w.trace ++ es →
      (SendsWhole es content ↔ Covers env content st.size)) ∧
    ∀ w u w' es, Returns (execGet env path) w u w' → w'.trace = w.trace ++ es →
      (SendsWhole es content ↔ Covers env content (sizeArg st.size)) :=
  ⟨fun _ _ _ _ => Server.execGet_sendsWhole_iff hstat hfile,
    fun _ _ _ _ => execGet_sendsWhole_iff hstat hfile⟩

/-- The header loop on a stream that begins with the empty line. -/
theorem getFileHeader_empty_line : ((), []) ∈ getFileHeader [some CR, some LF] := by
  have hline : ([LF], []) ∈ getLine SIZE [some CR, some LF] :=
    (mem_getLine_iff SIZE _ _).mpr (by decide +kernel)
  refine (Computation.mem_map_iff _ _ _).mpr ⟨[], ?_, rfl⟩
  rw [Computation.mem_loop_iff]
  refine Or.inr ⟨⟨1, [LF], []⟩, ?_, ?_⟩
  · rw [getFileTurn, if_pos (by decide)]
    exact (Computation.mem_map_iff _ _ _).mpr ⟨_, hline, rfl⟩
  · rw [Computation.mem_loop_iff, getFileTurn, if_neg (by decide)]
    exact Or.inl (Computation.ret_mem _)

/-- Both servers answer a request for `htdocs/sub`. -/
theorem exists_returns_index (content : Bytes) :
    (∃ w' es, Returns (Server.execGet (indexEnv content) (bytes "htdocs/sub"))
      ⟨[CR, LF], Server.ServerHttp.init, []⟩ () w' ∧ w'.trace = [] ++ es) ∧
    ∃ w' es, Returns (execGet (indexEnv content) (bytes "htdocs/sub"))
      ⟨[some CR, some LF], []⟩ () w' ∧ w'.trace = [] ++ es :=
  ⟨Server.exists_returns_execGet (indexEnv_node content) (isFile_indexEnv content) rfl
      (Server.header_empty_line Server.SIZE_sub_one_pos []),
    exists_returns_execGet (indexEnv_node content) (isFile_indexEnv content) rfl
      getFileHeader_empty_line⟩

/-- An index that is shorter than its directory. -/
theorem execGet_whole_iff_example :
    (∃ w' es, Returns (Server.execGet (indexEnv (bytes "hi")) (bytes "htdocs/sub"))
      ⟨[CR, LF], Server.ServerHttp.init, []⟩ () w' ∧ w'.trace = [] ++ es ∧
        SendsWhole es (bytes "hi")) ∧
    ∃ w' es, Returns (execGet (indexEnv (bytes "hi")) (bytes "htdocs/sub"))
      ⟨[some CR, some LF], []⟩ () w' ∧ w'.trace = [] ++ es ∧ SendsWhole es (bytes "hi") := by
  obtain ⟨⟨w₁, es₁, hreturns₁, htrace₁⟩, w₂, es₂, hreturns₂, htrace₂⟩ :=
    exists_returns_index (bytes "hi")
  obtain ⟨h₁, h₂⟩ :=
    execGet_whole_iff (indexEnv_node (bytes "hi")) (isFile_indexEnv (bytes "hi"))
  have hcovers : Covers (indexEnv (bytes "hi")) (bytes "hi") 4096 := Or.inr ⟨rfl, by decide⟩
  exact ⟨⟨w₁, es₁, hreturns₁, htrace₁, (h₁ _ _ _ _ hreturns₁ htrace₁).mpr hcovers⟩,
    w₂, es₂, hreturns₂, htrace₂, (h₂ _ _ _ _ hreturns₂ htrace₂).mpr hcovers⟩

/-- An index of 5000 bytes in a directory of 4096. -/
theorem not_sendsWhole_index :
    (∃ w' es, Returns (Server.execGet (indexEnv (List.replicate 5000 (ch 'a')))
      (bytes "htdocs/sub")) ⟨[CR, LF], Server.ServerHttp.init, []⟩ () w' ∧
        w'.trace = [] ++ es ∧ ¬ SendsWhole es (List.replicate 5000 (ch 'a'))) ∧
    ∃ w' es, Returns (execGet (indexEnv (List.replicate 5000 (ch 'a'))) (bytes "htdocs/sub"))
      ⟨[some CR, some LF], []⟩ () w' ∧
        w'.trace = [] ++ es ∧ ¬ SendsWhole es (List.replicate 5000 (ch 'a')) := by
  generalize hcontent : List.replicate 5000 (ch 'a') = content
  have hlen : 4096 < content.length := by
    rw [← hcontent, List.length_replicate]
    decide
  obtain ⟨⟨w₁, es₁, hreturns₁, htrace₁⟩, w₂, es₂, hreturns₂, htrace₂⟩ :=
    exists_returns_index content
  have h₁ := Server.execGet_sendsWhole_iff (indexEnv_node content) (isFile_indexEnv content)
    hreturns₁ htrace₁
  have h₂ := execGet_sendsWhole_iff (indexEnv_node content) (isFile_indexEnv content)
    hreturns₂ htrace₂
  exact ⟨⟨w₁, es₁, hreturns₁, htrace₁, mt h₁.mp (not_covers_indexEnv hlen)⟩,
    w₂, es₂, hreturns₂, htrace₂, mt h₂.mp (not_covers_indexEnv hlen)⟩

end FacePerception.Epoll
