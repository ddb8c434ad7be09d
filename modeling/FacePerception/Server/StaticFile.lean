import FacePerception.Server.Response

/-!
# Static files

What the client gets of a file from `exec_get` (`server/server_http.h`, lines 230–277 and
354–373). `exec_get` asks `stat` for the size before it puts `"/index.html"` behind the
path of a directory, so `sendfile` gets the size of the directory and not the one of the
file that `send_header` opens.

Results:
* `message_fileMessage`: what follows the empty header line.
* `execGet_sendsWhole_iff`: when that is the whole file.
* `covers_of_not_isDir`: always, for a file that is not the index of a directory.
* `StaticRequest.returns_accept`: the answer to a whole request for a file.
-/

namespace FacePerception.Server

open CString Proc HttpMessage

/-- The path that `exec_get` opens, when `stat` has found `st` at `path`. -/
def openedPath (path : Bytes) (st : Node) : Bytes :=
  if st.isDir then directoryPath path else path

/-- What has been sent is a message with the body `content`. -/
def SendsWhole (es : List Event) (content : Bytes) : Prop :=
  ∃ status fields, Message (sentBytes es) status fields content

/-- `sendfile` gets a descriptor, and at least `n` for the size, if there is anything to
send. -/
def Covers (env : Env) (content : Bytes) (n : ℕ) : Prop :=
  content = [] ∨ env.openFd.isSome = true ∧ content.length ≤ n

/-! ## What is sent -/

/-- The message of `send_header`, with `contentType` for the third line. -/
def fileMessage (contentType body : Bytes) : Bytes :=
  bytes "HTTP/1.0 200 OK" ++ CR :: LF :: (bytes "Server: jdbhttp/1.1" ++
    CR :: LF :: (contentType ++ CR :: LF :: CR :: LF :: body))

/-- The status line and the first header line of it. -/
def okLine : Bytes := bytes "HTTP/1.0 200 OK"
def serverField : Bytes := bytes "Server: jdbhttp/1.1"

theorem message_fileMessage {contentType : Bytes} (hcr : CR ∉ contentType)
    (hne : contentType ≠ []) (body : Bytes) :
    Message (fileMessage contentType body) okLine [serverField, contentType] body := by
  refine ⟨_, crlfLine_append (by decide) _, ?_⟩
  refine .field (crlfLine_append (by decide) _) (by decide) ?_
  exact .field (crlfLine_append hcr _) hne (.empty (crlfLine_append (w := []) (by decide) _))

theorem sendsWhole_fileMessage_iff {contentType : Bytes} (hcr : CR ∉ contentType)
    (hne : contentType ≠ []) {es : List Event} {body : Bytes}
    (hsent : sentBytes es = fileMessage contentType body) (content : Bytes) :
    SendsWhole es content ↔ body = content := by
  have hmessage := message_fileMessage hcr hne body
  rw [SendsWhole, hsent]
  constructor
  · intro ⟨_, _, h⟩
    exact (hmessage.unique h).2.2
  · rintro rfl
    exact ⟨_, _, hmessage⟩

/-- What `sendfile` sends of the file at `path`. -/
def fileBody (env : Env) (content : Bytes) (size : ℕ) : Bytes :=
  if env.openFd.isSome then content.take size else []

theorem fileBody_eq_iff (env : Env) (content : Bytes) (size : ℕ) :
    fileBody env content size = content ↔ Covers env content size := by
  rw [fileBody, Covers]
  split_ifs with hopen
  · rw [List.take_eq_self_iff]
    constructor
    · intro hle
      exact Or.inr ⟨hopen, hle⟩
    · rintro (rfl | ⟨-, hle⟩)
      · exact Nat.zero_le size
      · exact hle
  · constructor
    · intro hnil
      exact Or.inl hnil.symm
    · rintro (hnil | ⟨hsome, -⟩)
      · exact hnil.symm
      · exact absurd hsome hopen

variable {env : Env} {path content : Bytes}

/-- `path` names a readable file. -/
def IsFile (env : Env) (path content : Bytes) : Prop := env.node path = some (.file true content)

theorem IsFile.openFile (hfile : IsFile env path content) : env.openFile path = env.openFd := by
  rw [Env.openFile, Env.canRead, show env.node path = _ from hfile]
  rfl

theorem IsFile.fopen (hfile : IsFile env path content) : env.fopen path = env.fopenFd := by
  rw [Env.fopen, Env.canRead, show env.node path = _ from hfile]
  rfl

theorem sentBytes_openedEvents (fd : Option ℕ) : sentBytes (openedEvents fd) = [] := by
  cases fd with
  | none => rfl
  | some fd => rfl

theorem sentBytes_sendfileEvents (hfile : IsFile env path content) (size : ℕ) :
    sentBytes (sendfileEvents env (env.openFile path) path size) = fileBody env content size := by
  have hnode : env.node path = some (.file true content) := hfile
  rw [hfile.openFile, fileBody]
  cases env.openFd with
  | none => rfl
  | some fd =>
    simp only [sendfileEvents, hnode]
    exact List.append_nil _

/-- What has been sent when `lines` have made the header and the file is closed. -/
theorem sentBytes_served (hfile : IsFile env path content) {lines : List Event}
    {contentType : Bytes} (hlines : sentBytes lines = fileMessage contentType []) (fd size : ℕ) :
    sentBytes (.opened fd :: (openedEvents (env.openFile path) ++ lines ++
        sendfileEvents env (env.openFile path) path size) ++ [.closed fd]) =
      fileMessage contentType (fileBody env content size) := by
  have hopened : ∀ es, sentBytes (.opened fd :: es) = sentBytes es := fun _ => rfl
  have hclosed : sentBytes [.closed fd] = [] := rfl
  rw [List.cons_append, hopened]
  simp only [sentBytes_append, hlines, hclosed, sentBytes_openedEvents,
    sentBytes_sendfileEvents hfile, fileMessage]
  simp

theorem sentBytes_headerEvents (hfile : IsFile env path content) (fd size : ℕ) :
    sentBytes (.opened fd :: headerEvents env path size ++ [.closed fd]) =
      fileMessage (bytes "Content-Type:text/html") (fileBody env content size) :=
  sentBytes_served hfile (by decide +kernel) fd size

/-! ## When it is the whole file -/

theorem execGet_of_some {st : Node} (hstat : env.node path = some st) :
    execGet env path = execGetFile env (openedPath path st) st.size := by
  rw [execGet, hstat]
  rfl

/-- **`exec_get` sends the whole file** it opens iff the size that `stat` has found covers
it. -/
theorem execGet_sendsWhole_iff {st : Node} {w w' : World} {u : Unit} {es : List Event}
    (hstat : env.node path = some st) (hfile : IsFile env (openedPath path st) content)
    (hreturns : Returns (execGet env path) w u w') (htrace : w'.trace = w.trace ++ es) :
    SendsWhole es content ↔ Covers env content st.size := by
  rw [execGet_of_some hstat] at hreturns
  obtain ⟨_, rest, fd, -, -, rfl⟩ := (returns_execGetFile _ _ _ _ _ _).mp hreturns
  have hes : .opened fd :: headerEvents env (openedPath path st) st.size ++ [.closed fd] = es := by
    rw [List.append_assoc] at htrace
    exact List.append_cancel_left htrace
  rw [← hes, sendsWhole_fileMessage_iff (by decide) (by decide)
    (sentBytes_headerEvents hfile fd st.size), fileBody_eq_iff]

/-- It does send something if the header lines end and the file can be opened. -/
theorem exists_returns_execGet {st : Node} {w : World} {lines : List Bytes} {rest : Bytes} {fd : ℕ}
    (hstat : env.node path = some st) (hfile : IsFile env (openedPath path st) content)
    (hfopen : env.fopenFd = some fd) (hheader : Header (SIZE - 1) w.sock lines rest) :
    ∃ w' es, Returns (execGet env path) w () w' ∧ w'.trace = w.trace ++ es := by
  have hopened : env.fopen (openedPath path st) = some fd := hfile.fopen.trans hfopen
  rw [execGet_of_some hstat]
  have hreturns := (returns_execGetFile env (openedPath path st) st.size () w _).mpr
    ⟨lines, rest, fd, hheader, hopened, rfl⟩
  exact ⟨_, _, hreturns, List.append_assoc ..⟩

/-- A file that is not reached through a directory is covered once it is opened. -/
theorem covers_of_not_isDir {st : Node} (hstat : env.node path = some st)
    (hfile : IsFile env (openedPath path st) content) (hdir : st.isDir = false)
    (hopen : env.openFd.isSome = true) : Covers env content st.size := by
  have hpath : openedPath path st = path := by rw [openedPath, hdir, if_neg Bool.false_ne_true]
  rw [hpath, IsFile, hstat] at hfile
  obtain rfl := Option.some.inj hfile
  exact Or.inr ⟨hopen, le_rfl⟩

/-! ## Requests for files -/

/-- A request line and header lines, with CRLF behind each of them. -/
def requestBytes (l : Bytes) (lines : List Bytes) : Bytes := l ++ CR :: LF :: headerBlock lines

/-- The path that a request line asks for. -/
def askedPath (l : Bytes) : Bytes := resourcePath (resource (l ++ [LF]))

/-- A request for a file, in lines that `get_line` reads at once. -/
structure StaticRequest (l : Bytes) (lines : List Bytes) : Prop where
  line : (∀ c ∈ l, Ordinary c) ∧ l.length < SIZE - 1
  lines : ∀ l ∈ lines, IsHeaderLine l ∧ l.length < SIZE - 1
  static : ¬ IsCgi (l ++ [LF])

/-- `Accept` answers it as soon as its header loop ends. -/
theorem StaticRequest.returns_accept {l : Bytes} {lines : List Bytes} (h : StaticRequest l lines)
    {st : Node} {fd : ℕ} (hnode : env.node (askedPath l) = some st)
    (hfile : IsFile env (openedPath (askedPath l) st) content) (hfopen : env.fopenFd = some fd)
    (server : ServerHttp) {rest rest' : Bytes} {read : List Bytes}
    (hheader : Header (SIZE - 1) rest read rest') :
    ∃ w, Returns (accept env) ⟨l ++ CR :: LF :: rest, server, []⟩ () w ∧ w.server = server ∧
      sentBytes w.trace =
        fileMessage (bytes "Content-Type:text/html") (fileBody env content st.size) := by
  have hfirst := firstLine_requestLine h.line.1 h.line.2 rest
  have hnul := (hfirst.line SIZE_sub_one_pos).nul_notMem
  have hopened : env.fopen (openedPath (askedPath l) st) = some fd := hfile.fopen.trans hfopen
  have hanswer := (returns_answer_of_static env hnul h.static () ⟨rest, server, []⟩ _).mpr
    (Or.inr ⟨st, read, rest', fd, hnode, hheader, hopened, rfl⟩)
  refine ⟨_, (returns_accept_iff env () _ _).mpr ⟨_, rest, _, hfirst, hanswer, rfl⟩, rfl, ?_⟩
  have hclosed : sentBytes [.closed env.client] = [] := rfl
  dsimp only
  rw [sentBytes_append, hclosed, List.append_nil, List.nil_append]
  exact sentBytes_headerEvents hfile fd st.size

/-- A system where `htdocs/sub` is a directory of 4096 bytes with this index. -/
def indexEnv (content : Bytes) : Env :=
  { bareEnv with
    node := fun path =>
      if path = bytes "htdocs/sub" then some (.dir true 4096)
      else if path = bytes "htdocs/sub/index.html" then some (.file true content)
      else none }

theorem indexEnv_node (content : Bytes) :
    (indexEnv content).node (bytes "htdocs/sub") = some (.dir true 4096) := by
  simp only [indexEnv, if_true]

theorem isFile_indexEnv (content : Bytes) :
    IsFile (indexEnv content) (openedPath (bytes "htdocs/sub") (.dir true 4096)) content := by
  have hpath : openedPath (bytes "htdocs/sub") (.dir true 4096) =
      bytes "htdocs/sub/index.html" := by
    decide
  have hne : bytes "htdocs/sub/index.html" ≠ bytes "htdocs/sub" := by decide
  rw [hpath]
  simp only [IsFile, indexEnv, if_neg hne, if_true]

theorem not_covers_indexEnv {content : Bytes} {n : ℕ} (h : n < content.length) :
    ¬ Covers (indexEnv content) content n := by
  rintro (rfl | ⟨-, hle⟩)
  · exact absurd h (Nat.not_lt_zero n)
  · omega

end FacePerception.Server
