import FacePerception.Server.Accept

/-!
# How a request ends

What becomes of the thread and of the process that handle one request, for every
stream of bytes a client sends and every answer of the system.

Results:
* `accept_halts_iff`: the reads of a request end unless the stream breaks off
  inside a line where `Accept` still reads.
* `not_dies_accept_iff`: which requests meet none of the endings of `Death`.

The reads are those of the request line and of the headers; that of the body is
bounded by `content_length`.
-/

namespace FacePerception.Server

open CString Proc

variable (env : Env)

/-! ## What follows the request line -/

theorem dies_accept (e : Death) (w w' : World) :
    Dies (accept env) w e w' ↔ ∃ line rest, FirstLine (SIZE - 1) w.sock line rest ∧
      Dies (answer env line) { w with sock := rest } e w' := by
  simp only [accept, dies_bind, dies_onSock, dies_emit, and_false, exists_false, or_false,
    false_or, returns_getLine, readLine_eq_some_iff SIZE_sub_one_pos]
  constructor
  · rintro ⟨line, t, ⟨rest, hread, rfl⟩, hdies⟩
    exact ⟨line, rest, hread, hdies⟩
  · rintro ⟨line, rest, hread, hdies⟩
    exact ⟨line, _, ⟨rest, hread, rfl⟩, hdies⟩

theorem returns_accept (w : World) :
    (∃ u w', Returns (accept env) w u w') ↔
      ∃ line rest, FirstLine (SIZE - 1) w.sock line rest ∧
        ∃ u w', Returns (answer env line) { w with sock := rest } u w' := by
  simp only [accept, returns_bind, returns_emit, returns_getLine,
    readLine_eq_some_iff SIZE_sub_one_pos]
  constructor
  · rintro ⟨u, w', line, t, ⟨rest, hread, rfl⟩, u', t', hreturns, -⟩
    exact ⟨line, rest, hread, u', t', hreturns⟩
  · rintro ⟨line, rest, hread, u, w', hreturns⟩
    exact ⟨(), _, line, _, ⟨rest, hread, rfl⟩, u, w', hreturns, rfl⟩

/-- What a run of `Accept` that returns is made of. -/
theorem returns_accept_iff (u : Unit) (w w' : World) :
    Returns (accept env) w u w' ↔
      ∃ line rest w₁, FirstLine (SIZE - 1) w.sock line rest ∧
        Returns (answer env line) { w with sock := rest } () w₁ ∧
        w' = { w₁ with trace := w₁.trace ++ [.closed env.client] } := by
  simp only [accept, returns_bind, returns_emit, returns_getLine,
    readLine_eq_some_iff SIZE_sub_one_pos]
  constructor
  · rintro ⟨line, t, ⟨rest, hread, rfl⟩, u₁, w₁, hreturns, rfl⟩
    exact ⟨line, rest, w₁, hread, hreturns, rfl⟩
  · rintro ⟨line, rest, w₁, hread, hreturns, rfl⟩
    exact ⟨line, _, ⟨rest, hread, rfl⟩, (), w₁, hreturns, rfl⟩

theorem halts_accept (w : World) :
    Halts (accept env) w ↔ ∃ line rest, FirstLine (SIZE - 1) w.sock line rest ∧
      Halts (answer env line) { w with sock := rest } := by
  simp only [halts_iff, returns_accept, dies_accept]
  constructor
  · rintro (⟨line, rest, hread, h⟩ | ⟨e, w', line, rest, hread, h⟩)
    · exact ⟨line, rest, hread, Or.inl h⟩
    · exact ⟨line, rest, hread, Or.inr ⟨e, w', h⟩⟩
  · rintro ⟨line, rest, hread, h | ⟨e, w', h⟩⟩
    · exact Or.inl ⟨line, rest, hread, h⟩
    · exact Or.inr ⟨e, w', line, rest, hread, h⟩

theorem answer_eq {line : Bytes} (h : NUL ∉ line) :
    answer env line =
      if IsCgi line then
        execPost env (resourcePath (resource line)) (word line) (queryWord line)
      else execGet env (resourcePath (resource line)) := by
  obtain ⟨hcgi, hpath, hquery⟩ := getPathMethodQuery_eq h
  have hmethod : (getPathMethodQuery line).method = word line := by
    rw [getPathMethodQuery_method]
    exact getComm_eq_word h
  simp only [answer, hcgi, hpath, hquery, hmethod, decide_eq_true_eq]

theorem strlen_queryWord_eq_zero_iff {line : Bytes} (h : NUL ∉ line) :
    strlen (queryWord line) = 0 ↔ queryWord line = [] := by
  have hnul : NUL ∉ queryWord line := fun hmem => h (queryWord_subset line hmem)
  rw [strlen, cstr_eq_self hnul, List.length_eq_zero_iff]

/-- A CGI request that is answered: the check-in, the headers, and the exchange unless
the content length is -1. -/
theorem returns_answer_of_cgi {line : Bytes} (h : NUL ∉ line) (hcgi : IsCgi line) (u : Unit)
    (w w' : World) :
    Returns (answer env line) w u w' ↔
      ∃ server lines rest,
        sendVector env.lib ⟨queryWord line, env.clock⟩ w.server = some server ∧
        Header (SIZE - 1) w.sock lines rest ∧
        ((contentLengthOf (word line) lines = -1 ∧ w' = ⟨rest, server, w.trace⟩) ∨
          contentLengthOf (word line) lines ≠ -1 ∧ env.forks = true ∧
            w' = exchanged env (resourcePath (resource line)) (word line) (queryWord line)
              (contentLengthOf (word line) lines) ⟨rest, server, w.trace⟩) := by
  rw [answer_eq env h, if_pos hcgi, execPost, returns_bind]
  simp only [returns_sendVectorProc, returns_execCgi]
  constructor
  · rintro ⟨-, t, ⟨server, hsend, rfl⟩, lines, rest, hheader, hrest⟩
    exact ⟨server, lines, rest, hsend, hheader, hrest⟩
  · rintro ⟨server, lines, rest, hsend, hheader, hrest⟩
    exact ⟨(), _, ⟨server, hsend, rfl⟩, lines, rest, hheader, hrest⟩

/-- What a CGI request does until `Accept` returns, if its exchange takes place. -/
def answeredEvents (line : Bytes) (contentLength : ℤ) (sock : Bytes) : List Event :=
  exchangeEvents env (resourcePath (resource line)) (word line) (queryWord line) contentLength
    (copied env (word line) contentLength sock).1 ++ [.closed env.client]

/-- A CGI request with a query, whose headers end, is answered if the fork succeeds. -/
theorem exists_returns_accept {w : World} {line rest rest' : Bytes} {lines : List Bytes}
    (hfirst : FirstLine (SIZE - 1) w.sock line rest) (hcgi : IsCgi line)
    (hquery : queryWord line ≠ []) (hheader : Header (SIZE - 1) rest lines rest')
    (hminus : contentLengthOf (word line) lines ≠ -1) (hforks : env.forks = true) :
    ∃ w', Returns (accept env) w () w' ∧
      w'.trace = w.trace ++ answeredEvents env line (contentLengthOf (word line) lines) rest' := by
  have hnul := (hfirst.line SIZE_sub_one_pos).nul_notMem
  have hsome := mt (sendVector_eq_none_iff env.lib ⟨queryWord line, env.clock⟩ w.server).mp
    (mt (strlen_queryWord_eq_zero_iff hnul).mp hquery)
  obtain ⟨server, hsend⟩ := Option.ne_none_iff_exists'.mp hsome
  have hanswer := (returns_answer_of_cgi env hnul hcgi () { w with sock := rest } _).mpr
    ⟨server, lines, rest', hsend, hheader, Or.inr ⟨hminus, hforks, rfl⟩⟩
  exact ⟨_, (returns_accept_iff env () w _).mpr ⟨line, rest, _, hfirst, hanswer, rfl⟩,
    List.append_assoc ..⟩

/-- What a CGI request that is answered has done. -/
theorem trace_of_returns_accept {w w' : World} {u : Unit} {line rest rest' : Bytes}
    {lines : List Bytes} (hfirst : FirstLine (SIZE - 1) w.sock line rest) (hcgi : IsCgi line)
    (hheader : Header (SIZE - 1) rest lines rest')
    (hminus : contentLengthOf (word line) lines ≠ -1)
    (hreturns : Returns (accept env) w u w') :
    w'.trace = w.trace ++ answeredEvents env line (contentLengthOf (word line) lines) rest' := by
  obtain ⟨line', rest₁, w₁, hfirst', hanswer, rfl⟩ := (returns_accept_iff env u w w').mp hreturns
  obtain ⟨rfl, rfl⟩ := hfirst.unique SIZE_sub_one_pos hfirst'
  have hnul := (hfirst.line SIZE_sub_one_pos).nul_notMem
  obtain ⟨server, lines', rest₂, -, hheader', hrest⟩ :=
    (returns_answer_of_cgi env hnul hcgi _ _ _).mp hanswer
  obtain ⟨rfl, rfl⟩ := hheader.unique hheader'
  rcases hrest with ⟨hminus', -⟩ | ⟨-, -, rfl⟩
  · exact absurd hminus' hminus
  · exact List.append_assoc ..

/-- What `exec_get` makes of the path of a request line: the index of a directory. -/
def servedPath (line : Bytes) (st : Node) : Bytes :=
  if st.isDir then directoryPath (resourcePath (resource line)) else resourcePath (resource line)

/-- A static request that is answered. -/
theorem returns_answer_of_static {line : Bytes} (h : NUL ∉ line) (hcgi : ¬ IsCgi line) (u : Unit)
    (w w' : World) :
    Returns (answer env line) w u w' ↔
      (env.node (resourcePath (resource line)) = none ∧ w' = w) ∨
        ∃ st lines rest fd, env.node (resourcePath (resource line)) = some st ∧
          Header (SIZE - 1) w.sock lines rest ∧ env.fopen (servedPath line st) = some fd ∧
          w' = ⟨rest, w.server, w.trace ++
            .opened fd :: headerEvents env (servedPath line st) st.size ++ [.closed fd]⟩ := by
  rw [answer_eq env h, if_neg hcgi, returns_execGet]
  simp only [returns_execGetFile, servedPath]
  constructor
  · rintro (hnone | ⟨st, hnode, lines, rest, fd, hheader, hfile, rfl⟩)
    · exact Or.inl hnone
    · exact Or.inr ⟨st, lines, rest, fd, hnode, hheader, hfile, rfl⟩
  · rintro (hnone | ⟨st, lines, rest, fd, hnode, hheader, hfile, rfl⟩)
    · exact Or.inl hnone
    · exact Or.inr ⟨st, hnode, lines, rest, fd, hheader, hfile, rfl⟩

/-! ## The reads end -/

theorem halts_execCgi (path method query : Bytes) (w : World) :
    Halts (execCgi env path method query) w ↔ ¬ Stalls (SIZE - 1) w.sock := by
  rw [halts_iff, ← exists_header_iff SIZE_sub_one_pos]
  constructor
  · rintro (⟨u, w', h⟩ | ⟨e, w', h⟩)
    · obtain ⟨lines, rest, hheader, -⟩ := (returns_execCgi _ _ _ _ _ _ _).mp h
      exact ⟨lines, rest, hheader⟩
    · obtain ⟨lines, rest, hheader, -⟩ := (dies_execCgi _ _ _ _ _ _ _).mp h
      exact ⟨lines, rest, hheader⟩
  · rintro ⟨lines, rest, hheader⟩
    by_cases hminus : contentLengthOf method lines = -1
    · exact Or.inl ⟨(), _, (returns_execCgi _ _ _ _ _ _ _).mpr
        ⟨lines, rest, hheader, Or.inl ⟨hminus, rfl⟩⟩⟩
    · cases hforks : env.forks with
      | true =>
        exact Or.inl ⟨(), _, (returns_execCgi _ _ _ _ _ _ _).mpr
          ⟨lines, rest, hheader, Or.inr ⟨hminus, hforks, rfl⟩⟩⟩
      | false =>
        exact Or.inr ⟨.exit, _, (dies_execCgi _ _ _ _ _ _ _).mpr
          ⟨lines, rest, hheader, hminus, hforks, rfl, rfl⟩⟩

theorem halts_execGetFile (path : Bytes) (size : ℕ) (w : World) :
    Halts (execGetFile env path size) w ↔ ¬ Stalls (SIZE - 1) w.sock := by
  rw [halts_iff, ← exists_header_iff SIZE_sub_one_pos]
  constructor
  · rintro (⟨u, w', h⟩ | ⟨e, w', h⟩)
    · obtain ⟨lines, rest, fd, hheader, -⟩ := (returns_execGetFile _ _ _ _ _ _).mp h
      exact ⟨lines, rest, hheader⟩
    · exact ((dies_execGetFile _ _ _ _ _).mp ⟨w', h⟩).1
  · rintro ⟨lines, rest, hheader⟩
    cases hfile : env.fopen path with
    | some fd =>
      exact Or.inl ⟨(), _, (returns_execGetFile _ _ _ _ _ _).mpr
        ⟨lines, rest, fd, hheader, hfile, rfl⟩⟩
    | none =>
      obtain ⟨w', hdies⟩ := (dies_execGetFile env path size .fcloseNull w).mpr
        ⟨⟨lines, rest, hheader⟩, hfile, rfl⟩
      exact Or.inr ⟨_, w', hdies⟩

/-- The request is read beyond its first line: a CGI request with a query, or a
static one that `stat` finds. -/
def ReadsHeader (line : Bytes) : Prop :=
  if IsCgi line then queryWord line ≠ [] else env.node (resourcePath (resource line)) ≠ none

theorem halts_answer {line : Bytes} (h : NUL ∉ line) (w : World) :
    Halts (answer env line) w ↔ (ReadsHeader env line → ¬ Stalls (SIZE - 1) w.sock) := by
  rw [answer_eq env h, ReadsHeader]
  split_ifs with hcgi
  · rw [execPost, halts_bind]
    by_cases hquery : queryWord line = []
    · have hnone := (sendVector_eq_none_iff env.lib ⟨queryWord line, env.clock⟩ w.server).mpr
        ((strlen_queryWord_eq_zero_iff h).mpr hquery)
      refine iff_of_true (Or.inr ⟨.assertGetString, w, ?_⟩) (fun hne => absurd hquery hne)
      exact (dies_sendVectorProc _ _ _ _ _).mpr ⟨hnone, rfl, rfl⟩
    · have hsome := mt (sendVector_eq_none_iff env.lib ⟨queryWord line, env.clock⟩ w.server).mp
        (mt (strlen_queryWord_eq_zero_iff h).mp hquery)
      obtain ⟨server, hsend⟩ := Option.ne_none_iff_exists'.mp hsome
      simp only [dies_sendVectorProc, hsend, reduceCtorEq, false_and, exists_false, or_false,
        returns_sendVectorProc, halts_execCgi, Option.some.injEq]
      constructor
      · rintro ⟨-, t, ⟨_, rfl, rfl⟩, hstalls⟩ -
        exact hstalls
      · intro hstalls
        exact ⟨(), _, ⟨_, rfl, rfl⟩, hstalls hquery⟩
  · unfold execGet
    cases hnode : env.node (resourcePath (resource line)) with
    | none => simp [halts_iff]
    | some st => simp [halts_execGetFile]

/-- **When the reads of a request end.** `Accept` comes to an end, in a normal return
or not, unless the stream is one unfinished request line, or the request is read
beyond its first line and the rest of the stream breaks off inside a line. -/
theorem accept_halts_iff (w : World) :
    Halts (accept env) w ↔ ¬ Unfinished (SIZE - 1) w.sock ∧
      ∀ line rest, FirstLine (SIZE - 1) w.sock line rest → ReadsHeader env line →
        ¬ Stalls (SIZE - 1) rest := by
  rw [halts_accept, ← readLine_eq_none_iff SIZE_sub_one_pos]
  simp only [← readLine_eq_some_iff SIZE_sub_one_pos]
  cases hread : readLine (SIZE - 1) w.sock with
  | none => simp
  | some r =>
    obtain ⟨line, rest⟩ := r
    have hfirst := (readLine_eq_some_iff SIZE_sub_one_pos w.sock line rest).mp hread
    have hnul := (hfirst.line SIZE_sub_one_pos).nul_notMem
    simp only [Option.some.injEq, Prod.mk.injEq, reduceCtorEq, not_false_iff, true_and]
    constructor
    · rintro ⟨_, _, ⟨rfl, rfl⟩, hhalts⟩ _ _ ⟨rfl, rfl⟩
      exact (halts_answer env hnul _).mp hhalts
    · intro hstalls
      exact ⟨line, rest, ⟨rfl, rfl⟩, (halts_answer env hnul _).mpr (hstalls line rest ⟨rfl, rfl⟩)⟩

theorem not_halts_of_unfinished {w : World} (h : Unfinished (SIZE - 1) w.sock) :
    ¬ Halts (accept env) w := by
  rw [halts_accept]
  rintro ⟨line, rest, hfirst, -⟩
  have hread := (readLine_eq_some_iff SIZE_sub_one_pos _ _ _).mpr hfirst
  rw [readLine_unfinished h] at hread
  cases hread

/-! ## None of the endings of `Death` -/

/-- What a request line must meet, with `rest` to be read behind it, for no ending of
`Death` to be met. -/
def LineSurvives (line rest : Bytes) : Prop :=
  if IsCgi line then
    queryWord line ≠ [] ∧ (env.forks = true ∨ ∀ lines rest',
      Header (SIZE - 1) rest lines rest' → contentLengthOf (word line) lines = -1)
  else
    ∀ st, env.node (resourcePath (resource line)) = some st → Stalls (SIZE - 1) rest ∨
      env.fopen (if st.isDir then directoryPath (resourcePath (resource line))
        else resourcePath (resource line)) ≠ none

theorem dies_execPost (path method query : Bytes) (w : World) :
    (∃ e w', Dies (execPost env path method query) w e w') ↔
      strlen query = 0 ∨ env.forks = false ∧
        ∃ lines rest, Header (SIZE - 1) w.sock lines rest ∧ contentLengthOf method lines ≠ -1 := by
  simp only [execPost, dies_bind, dies_sendVectorProc, returns_sendVectorProc]
  constructor
  · rintro ⟨e, w', ⟨hnone, -, -⟩ | ⟨-, t, ⟨server, -, rfl⟩, hdies⟩⟩
    · exact Or.inl ((sendVector_eq_none_iff _ _ _).mp hnone)
    · obtain ⟨lines, rest, hheader, hminus, hforks, -⟩ := (dies_execCgi _ _ _ _ _ _ _).mp hdies
      exact Or.inr ⟨hforks, lines, rest, hheader, hminus⟩
  · intro h
    cases hsend : sendVector env.lib ⟨query, env.clock⟩ w.server with
    | none => exact ⟨.assertGetString, w, Or.inl ⟨rfl, rfl, rfl⟩⟩
    | some server =>
      rcases h with hempty | ⟨hforks, lines, rest, hheader, hminus⟩
      · rw [(sendVector_eq_none_iff _ _ _).mpr hempty] at hsend
        cases hsend
      · have hdies := (dies_execCgi env path method query .exit { w with server := server } _).mpr
          ⟨lines, rest, hheader, hminus, hforks, rfl, rfl⟩
        exact ⟨.exit, _, Or.inr ⟨(), _, ⟨server, rfl, rfl⟩, hdies⟩⟩

theorem dies_answer {line : Bytes} (h : NUL ∉ line) (w : World) :
    (∃ e w', Dies (answer env line) w e w') ↔ ¬ LineSurvives env line w.sock := by
  rw [answer_eq env h, LineSurvives]
  split_ifs with hcgi
  · rw [dies_execPost, strlen_queryWord_eq_zero_iff h]
    simp only [not_and_or, not_or, not_not, not_forall, Bool.not_eq_true, ne_eq, exists_prop]
  · simp only [dies_execGet, not_forall, not_or, not_not, ← exists_header_iff SIZE_sub_one_pos,
      ne_eq, exists_prop]
    constructor
    · rintro ⟨e, w', st, hnode, hdies⟩
      obtain ⟨hheader, hfile, -⟩ := (dies_execGetFile _ _ _ _ _).mp ⟨w', hdies⟩
      exact ⟨st, hnode, hheader, hfile⟩
    · rintro ⟨st, hnode, hheader, hfile⟩
      obtain ⟨w', hdies⟩ := (dies_execGetFile env _ st.size .fcloseNull w).mpr
        ⟨hheader, hfile, rfl⟩
      exact ⟨.fcloseNull, w', st, hnode, hdies⟩

/-- **Which requests meet none of the endings of `Death`.** A CGI request must have a
query, and its `fork` must succeed unless the headers never end or announce a
content length of -1; of a static request `fopen` must be able to open the file or
the index of the directory that `stat` found, unless the headers never end. -/
theorem not_dies_accept_iff (w : World) :
    (∀ e w', ¬ Dies (accept env) w e w') ↔
      ∀ line rest, FirstLine (SIZE - 1) w.sock line rest → LineSurvives env line rest := by
  constructor
  · intro hsurvives line rest hfirst
    by_contra hnot
    have hnul := (hfirst.line SIZE_sub_one_pos).nul_notMem
    obtain ⟨e, w', hdies⟩ := (dies_answer env hnul { w with sock := rest }).mpr hnot
    exact hsurvives e w' ((dies_accept env e w w').mpr ⟨line, rest, hfirst, hdies⟩)
  · intro hlines e w' hdies
    obtain ⟨line, rest, hfirst, hanswer⟩ := (dies_accept env e w w').mp hdies
    have hnul := (hfirst.line SIZE_sub_one_pos).nul_notMem
    have hnot := (dies_answer env hnul { w with sock := rest }).mp ⟨e, w', hanswer⟩
    exact hnot (hlines line rest hfirst)

/-- The stream `G`. -/
theorem accept_spins : ¬ Halts (accept bareEnv) ⟨bytes "G", ServerHttp.init, []⟩ :=
  not_halts_of_unfinished bareEnv ⟨by decide, by decide, ordinary_of_all (by decide)⟩

end FacePerception.Server
