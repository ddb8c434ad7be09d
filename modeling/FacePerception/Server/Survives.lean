import FacePerception.Server.PostBody
import FacePerception.Server.Outcome

/-!
# Which requests the server survives

Besides the three endings of `Death`, a signal can end the process: the server leaves
SIGPIPE as it is, and `send` and `sendfile` raise it on a connection that the client has
reset, `write` on a pipe whose last reader is gone. When that happens is up to the other
ends, the `Peers` of a request. Which request makes how many of these calls is not.

Results:
* `sends_headerEvents`, `sends_exchangeEvents`: the calls of an answer.
* `accept_survives_iff`: which requests leave the server process running.

What stores outside an array do is undefined and left to `LineStores`.
-/

namespace FacePerception.Server

open CString Proc

/-! ## The calls that can raise SIGPIPE -/

/-- A call of `send` or `sendfile` that hands bytes to the connection. -/
def Event.sends : Event → Bool
  | .sent bs => bs ≠ []
  | _ => false

/-- A call of `write` on `cgi_input[1]`. -/
def Event.writes : Event → Bool
  | .written _ _ => true
  | _ => false

/-- The other ends of what a request writes to. `client`: how many calls of `send` and
`sendfile` the connection takes before one raises SIGPIPE; `reader`: how many bytes
`cgi_input` takes before its last reader is gone. `none` where that never happens. -/
structure Peers where
  client : Option ℕ
  reader : Option ℕ

/-- Nobody goes away. -/
def Peers.patient : Peers where
  client := none
  reader := none

/-- The other ends take `sends` calls of `send` and `sendfile`, and `writes` bytes. -/
def Peers.Outlast (peers : Peers) (sends writes : ℕ) : Prop :=
  (∀ k ∈ peers.client, sends ≤ k) ∧ ∀ k ∈ peers.reader, writes ≤ k

/-- The other ends take the calls in `es`. -/
def Peers.Take (peers : Peers) (es : List Event) : Prop :=
  peers.Outlast (es.countP Event.sends) (es.countP Event.writes)

variable (env : Env) (peers : Peers)

/-- `Accept`, started in `w`, ends the server process: in one of the ways of `Death`, or
in a call that raises SIGPIPE. -/
inductive EndsProcess (w : World) : Prop
  | death {e : Death} {w' : World} (h : Dies (accept env) w e w')
  | sigpipe {u : Unit} {w' : World} {es : List Event} (h : Returns (accept env) w u w')
    (htrace : w'.trace = w.trace ++ es) (hbreak : ¬ peers.Take es)

/-! ## How many there are -/

/-- Whether `sendfile` has something to send. -/
def sendfileCalls (path : Bytes) (size : ℕ) : ℕ :=
  match env.openFile path, env.node path with
  | some _, some (.file _ content) => if content.take size = [] then 0 else 1
  | _, _ => 0

theorem sends_openedEvents (fd : Option ℕ) :
    (openedEvents fd).countP Event.sends = 0 ∧ (openedEvents fd).countP Event.writes = 0 := by
  cases fd <;> exact ⟨rfl, rfl⟩

theorem sends_sendfileEvents (path : Bytes) (size : ℕ) :
    (sendfileEvents env (env.openFile path) path size).countP Event.sends =
        sendfileCalls env path size ∧
      (sendfileEvents env (env.openFile path) path size).countP Event.writes = 0 := by
  unfold sendfileEvents sendfileCalls
  rcases env.openFile path with _ | fd
  · exact ⟨rfl, rfl⟩
  · rcases env.node path with _ | ⟨readable, content⟩ | ⟨readable, size'⟩
    · exact ⟨rfl, rfl⟩
    · by_cases hnil : content.take size = [] <;> simp [hnil, Event.sends, Event.writes]
    · exact ⟨rfl, rfl⟩

theorem sends_headerEvents (path : Bytes) (size : ℕ) :
    (headerEvents env path size).countP Event.sends = 4 + sendfileCalls env path size ∧
      (headerEvents env path size).countP Event.writes = 0 := by
  obtain ⟨hopen, hopen'⟩ := sends_openedEvents (env.openFile path)
  obtain ⟨hfile, hfile'⟩ := sends_sendfileEvents env path size
  have hfour : [Event.sent (bytes "HTTP/1.0 200 OK" ++ [CR, LF]), .sent SERVER_STRING,
      .sent (bytes "Content-Type:text/html" ++ [CR, LF]), .sent [CR, LF]].countP
        Event.sends = 4 := by decide
  have hfour' : [Event.sent (bytes "HTTP/1.0 200 OK" ++ [CR, LF]), .sent SERVER_STRING,
      .sent (bytes "Content-Type:text/html" ++ [CR, LF]), .sent [CR, LF]].countP
        Event.writes = 0 := rfl
  simp only [headerEvents, List.countP_append, hopen, hopen', hfile, hfile', hfour, hfour',
    Nat.zero_add, and_self]

theorem sends_pipeEvents :
    (pipeEvents env).countP Event.sends = 0 ∧ (pipeEvents env).countP Event.writes = 0 := by
  unfold pipeEvents
  split_ifs <;> exact ⟨rfl, rfl⟩

theorem sends_exchangeEvents (path method query : Bytes) (contentLength : ℤ) (body : Bytes) :
    (exchangeEvents env path method query contentLength body).countP Event.sends =
        4 + (cgiText env path method query contentLength body).length ∧
      (exchangeEvents env path method query contentLength body).countP Event.writes =
        body.length := by
  obtain ⟨hpipe, hpipe'⟩ := sends_pipeEvents env
  have hheader : cgiHeaderEvents.countP Event.sends = 4 := by decide
  have hsent : ∀ bs : Bytes, (bs.map fun c => Event.sent [c]).countP Event.sends = bs.length := by
    intro bs
    simp [List.countP_map, Function.comp_def, Event.sends]
  have hwritten : ∀ (fd : ℕ) (bs : Bytes),
      (bs.map fun c => Event.written fd c).countP Event.writes = bs.length := by
    intro fd bs
    simp [List.countP_map, Function.comp_def, Event.writes]
  have hsent' : ∀ bs : Bytes, (bs.map fun c => Event.sent [c]).countP Event.writes = 0 := by
    intro bs
    simp [List.countP_map, Function.comp_def, Event.writes]
  have hwritten' : ∀ (fd : ℕ) (bs : Bytes),
      (bs.map fun c => Event.written fd c).countP Event.sends = 0 := by
    intro fd bs
    simp [List.countP_map, Function.comp_def, Event.sends]
  have hclosed : ∀ fd fd' : ℕ, [Event.closed fd, .closed fd'].countP Event.sends = 0 ∧
      [Event.closed fd, .closed fd'].countP Event.writes = 0 := fun _ _ => ⟨rfl, rfl⟩
  have hheader' : cgiHeaderEvents.countP Event.writes = 0 := rfl
  simp only [exchangeEvents, List.countP_append, hheader, hheader', hpipe, hpipe', hsent, hsent',
    hwritten, hwritten', hclosed]
  exact ⟨by omega, by omega⟩

/-! ## The process survives -/

/-- The other ends take the answer to the request line `line` with `rest` behind it: of a
CGI request the four lines of its header, what the child and the program print, and the
body of a POST; of a static one the four lines of its header and the file. -/
def LineOutlasted (line rest : Bytes) : Prop :=
  if IsCgi line then
    ∀ lines rest', Header (SIZE - 1) rest lines rest' →
      contentLengthOf (word line) lines ≠ -1 →
        peers.Outlast
          (4 + (cgiText env (resourcePath (resource line)) (word line) (queryWord line)
            (contentLengthOf (word line) lines)
            (copied env (word line) (contentLengthOf (word line) lines) rest').1).length)
          (if strcaseEq (word line) (bytes "POST") then
            (contentLengthOf (word line) lines).toNat else 0)
  else
    ∀ st, env.node (resourcePath (resource line)) = some st → Stalls (SIZE - 1) rest ∨
      peers.Outlast (4 + sendfileCalls env (servedPath line st) st.size) 0

theorem Peers.take_nil : peers.Take [] := ⟨fun k _ => Nat.zero_le k, fun k _ => Nat.zero_le k⟩

theorem take_exchangeEvents_iff (path method query : Bytes) (contentLength : ℤ) (sock : Bytes) :
    peers.Take (exchangeEvents env path method query contentLength
        (copied env method contentLength sock).1) ↔
      peers.Outlast
        (4 + (cgiText env path method query contentLength
          (copied env method contentLength sock).1).length)
        (if strcaseEq method (bytes "POST") then contentLength.toNat else 0) := by
  obtain ⟨hsends, hwrites⟩ := sends_exchangeEvents env path method query contentLength
    (copied env method contentLength sock).1
  rw [Peers.Take, hsends, hwrites, length_copied]

theorem take_fileEvents_iff (path : Bytes) (size fd : ℕ) :
    peers.Take (.opened fd :: headerEvents env path size ++ [.closed fd]) ↔
      peers.Outlast (4 + sendfileCalls env path size) 0 := by
  obtain ⟨hsends, hwrites⟩ := sends_headerEvents env path size
  have hfile : peers.Take (.opened fd :: headerEvents env path size ++ [.closed fd]) ↔
      peers.Take (headerEvents env path size) := by
    simp [Peers.Take, Event.sends, Event.writes]
  rw [hfile, Peers.Take, hsends, hwrites]

/-- The calls of a request that is answered. -/
theorem returns_answer_take {line : Bytes} (h : NUL ∉ line) {w w' : World} {u : Unit}
    (hreturns : Returns (answer env line) w u w') :
    ∃ es, w'.trace = w.trace ++ es ∧ (LineOutlasted env peers line w.sock → peers.Take es) := by
  by_cases hcgi : IsCgi line
  · rw [LineOutlasted, if_pos hcgi]
    obtain ⟨server, lines, rest, -, hheader, ⟨-, rfl⟩ | ⟨hminus, -, rfl⟩⟩ :=
      (returns_answer_of_cgi env h hcgi u w w').mp hreturns
    · exact ⟨[], (List.append_nil _).symm, fun _ => peers.take_nil⟩
    · exact ⟨_, rfl, fun hline =>
        (take_exchangeEvents_iff env peers _ _ _ _ _).mpr (hline lines rest hheader hminus)⟩
  · rw [LineOutlasted, if_neg hcgi]
    obtain ⟨-, rfl⟩ | ⟨st, lines, rest, fd, hnode, hheader, -, rfl⟩ :=
      (returns_answer_of_static env h hcgi u w w').mp hreturns
    · exact ⟨[], (List.append_nil _).symm, fun _ => peers.take_nil⟩
    · have hends : ¬ Stalls (SIZE - 1) w.sock :=
        (exists_header_iff SIZE_sub_one_pos _).mp ⟨lines, rest, hheader⟩
      exact ⟨_, List.append_assoc .., fun hline =>
        (take_fileEvents_iff env peers _ _ fd).mpr ((hline st hnode).resolve_left hends)⟩

/-- A request that meets no ending of `Death` is answered as far as the other ends let it. -/
theorem exists_not_take {line : Bytes} (h : NUL ∉ line) {w : World}
    (hsurvives : LineSurvives env line w.sock) (hnot : ¬ LineOutlasted env peers line w.sock) :
    ∃ w' es, Returns (answer env line) w () w' ∧ w'.trace = w.trace ++ es ∧ ¬ peers.Take es := by
  by_cases hcgi : IsCgi line
  · rw [LineSurvives, if_pos hcgi] at hsurvives
    rw [LineOutlasted, if_pos hcgi] at hnot
    obtain ⟨hquery, hforks⟩ := hsurvives
    push Not at hnot
    obtain ⟨lines, rest, hheader, hminus, hbreak⟩ := hnot
    have hsome := mt (sendVector_eq_none_iff env.lib ⟨queryWord line, env.clock⟩ w.server).mp
      (mt (strlen_queryWord_eq_zero_iff h).mp hquery)
    obtain ⟨server, hsend⟩ := Option.ne_none_iff_exists'.mp hsome
    have hfork := hforks.resolve_right fun hall => hminus (hall lines rest hheader)
    exact ⟨_, _, (returns_answer_of_cgi env h hcgi () w _).mpr
      ⟨server, lines, rest, hsend, hheader, Or.inr ⟨hminus, hfork, rfl⟩⟩, rfl,
      mt (take_exchangeEvents_iff env peers _ _ _ _ _).mp hbreak⟩
  · rw [LineSurvives, if_neg hcgi] at hsurvives
    rw [LineOutlasted, if_neg hcgi] at hnot
    push Not at hnot
    obtain ⟨st, hnode, hends, hbreak⟩ := hnot
    obtain ⟨lines, rest, hheader⟩ := (exists_header_iff SIZE_sub_one_pos _).mpr hends
    obtain ⟨fd, hfile⟩ := Option.ne_none_iff_exists'.mp
      ((hsurvives st hnode).resolve_left hends)
    exact ⟨_, _, (returns_answer_of_static env h hcgi () w _).mpr
      (Or.inr ⟨st, lines, rest, fd, hnode, hheader, hfile, rfl⟩), List.append_assoc ..,
      mt (take_fileEvents_iff env peers _ _ fd).mp hbreak⟩

/-- The `close` of `Accept` is no call that can raise SIGPIPE. -/
theorem take_closed_iff (es : List Event) (fd : ℕ) :
    peers.Take (es ++ [.closed fd]) ↔ peers.Take es := by
  simp [Peers.Take, Event.sends, Event.writes]

theorem EndsProcess.of_not_outlasted {w : World} {line rest : Bytes}
    (hfirst : FirstLine (SIZE - 1) w.sock line rest) (hsurvives : LineSurvives env line rest)
    (hnot : ¬ LineOutlasted env peers line rest) : EndsProcess env peers w := by
  obtain ⟨w', es, hreturns, htrace, hbreak⟩ := exists_not_take env peers
    (w := { w with sock := rest }) (hfirst.line SIZE_sub_one_pos).nul_notMem hsurvives hnot
  refine .sigpipe ((returns_accept_iff env () w _).mpr ⟨line, rest, w', hfirst, hreturns, rfl⟩)
    ?_ fun htake => hbreak ((take_closed_iff peers es env.client).mp htake)
  rw [htrace, List.append_assoc]

/-- **Which requests leave the server process running.** A CGI request must have a query,
and unless its headers never end or announce a content length of -1 its `fork` must succeed
and the other ends must take its answer and its body; of a static request for something
that `stat` finds `fopen` must be able to open the file or the index of the directory and
the client must take the answer, unless the headers never end. -/
theorem accept_survives_iff (w : World) :
    ¬ EndsProcess env peers w ↔ ∀ line rest, FirstLine (SIZE - 1) w.sock line rest →
      LineSurvives env line rest ∧ LineOutlasted env peers line rest := by
  constructor
  · intro hruns line rest hfirst
    have hsurvives := (not_dies_accept_iff env w).mp (fun e w' h => hruns (.death h)) line rest
      hfirst
    refine ⟨hsurvives, ?_⟩
    by_contra hnot
    exact hruns (.of_not_outlasted env peers hfirst hsurvives hnot)
  · rintro hline (hdies | ⟨hreturns, htrace, hbreak⟩)
    · exact (not_dies_accept_iff env w).mpr (fun line rest h => (hline line rest h).1) _ _ hdies
    · obtain ⟨line, rest, w₁, hfirst, hanswer, rfl⟩ := (returns_accept_iff env _ w _).mp hreturns
      obtain ⟨es, hes, htake⟩ :=
        returns_answer_take env peers (hfirst.line SIZE_sub_one_pos).nul_notMem hanswer
      dsimp only at hes htrace
      rw [hes, List.append_assoc] at htrace
      rw [← List.append_cancel_left htrace] at hbreak
      exact hbreak ((take_closed_iff peers es env.client).mpr (htake (hline line rest hfirst).2))

/-- The request line `GET /? HTTP/1.0`: the empty query fails the assertion of
`get_string`, although nobody goes away. -/
theorem accept_aborts :
    EndsProcess bareEnv .patient
      ⟨bytes "GET /? HTTP/1.0" ++ [CR, LF, CR, LF], ServerHttp.init, []⟩ := by
  have hfirst : FirstLine (SIZE - 1) (bytes "GET /? HTTP/1.0" ++ [CR, LF, CR, LF])
      (bytes "GET /? HTTP/1.0" ++ [LF]) [CR, LF] :=
    .ended (by decide) (ordinary_of_all (by decide)) (by decide) [LF, CR, LF]
  have hdies : ¬ LineSurvives bareEnv (bytes "GET /? HTTP/1.0" ++ [LF]) [CR, LF] := by
    rw [LineSurvives, if_pos (by decide)]
    exact fun h => h.1 (by decide)
  obtain ⟨e, w', h⟩ := (dies_answer bareEnv (by decide) ⟨[CR, LF], ServerHttp.init, []⟩).mpr hdies
  exact .death ((dies_accept _ _ _ _).mpr ⟨_, _, hfirst, h⟩)

/-- A POST for a program that is not there, whose child is gone before the body comes. -/
example : EndsProcess bareEnv ⟨none, some 0⟩
    ⟨bytes "POST /x HTTP/1.0" ++ CR :: LF ::
      (headerBlock [bytes "Content-Length: 5"] ++ CR :: LF :: bytes "hello"),
      ServerHttp.init, []⟩ := by
  have hfirst : FirstLine (SIZE - 1) (bytes "POST /x HTTP/1.0" ++ CR :: LF ::
      (headerBlock [bytes "Content-Length: 5"] ++ CR :: LF :: bytes "hello"))
      (bytes "POST /x HTTP/1.0" ++ [LF])
      (headerBlock [bytes "Content-Length: 5"] ++ CR :: LF :: bytes "hello") :=
    .ended (by decide) (ordinary_of_all (by decide)) (by decide)
      (LF :: (headerBlock [bytes "Content-Length: 5"] ++ CR :: LF :: bytes "hello"))
  refine .of_not_outlasted bareEnv ⟨none, some 0⟩ hfirst ?_ ?_
  · rw [LineSurvives, if_pos (by decide)]
    exact ⟨by decide, Or.inl rfl⟩
  · rw [LineOutlasted, if_pos (by decide)]
    intro hline
    have hheader := header_block SIZE_sub_one_pos [bytes "Content-Length: 5"] (bytes "hello")
      (by decide)
    have htake := (hline _ _ hheader (by decide +kernel)).2 0 rfl
    exact absurd htake (by decide +kernel)

end FacePerception.Server
