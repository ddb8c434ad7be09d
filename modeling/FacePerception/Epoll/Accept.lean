import FacePerception.Epoll.HeaderDrain
import FacePerception.Epoll.RequestLine
import FacePerception.Server.Outcome

/-!
# The worker of the epoll server

Model of `accept_request` (`server/server.h`, lines 179–217), which `epoll_et` starts in a
thread of its own for a socket that is readable. It answers static requests only; behind a
CGI request it closes the connection.

Results:
* `mem_getFileHeader_iff`: what the header loop reads on any schedule.
* `returns_acceptRequest`, `halts_acceptRequest_iff`: what a worker does, and when it comes
  to an end.
* `servers_agree`: where the two servers give the same answer to a static request.
* `cut_short`: what each of them makes of a request that ends behind a header line.
-/

namespace FacePerception.Epoll

open CString CNum Proc HttpMessage
open FacePerception.Server (Env Node Event Death Ordinary IsCgi IsFile resource resourcePath
  openedPath openedEvents fileMessage fileBody fileBody_eq_iff sentBytes headerBlock
  requestBytes askedPath okLine serverField getPathMethodQuery_eq)

/-! ## The worker -/

/-- What is behind the request line (lines 203–213). -/
def answer (env : Env) (buf : Bytes) : Proc World Death Unit :=
  let r := getMethodPathUrl buf
  if ¬ r.cgi then do
    execGet env r.path
    emit [.closed env.client]
  else emit [.closed env.client]

/-- `accept_request` (lines 179–217), on the connection of `env`. `n` is what the comparison
gives. -/
def acceptRequest (env : Env) : Proc World Death Unit := do
  let buf ← onSock (getLine SIZE)
  let n := decide (buf.length ≠ 0)
  if n then answer env buf else pure ()

/-! ## What a call of `get_line` returns -/

theorem lineFrom_endLine (sock : Schedule) :
    ∀ {room : ℕ} {ch : UInt8} {buf line : Bytes} {rest : Schedule},
      lineFrom room ch buf sock = some (line, rest) →
        rest.length ≤ sock.length ∧ (0 < room → sock ≠ [] → rest.length < sock.length) ∧
          ∃ buf' ch', line = endLine buf' ch' := by
  have hlast : ∀ (buf : Bytes) (ch : UInt8) (sock : Schedule) {line : Bytes} {rest : Schedule},
      some (lastRecv buf ch sock).finish = some (line, rest) →
        rest.length ≤ sock.length ∧ ∃ buf' ch', line = endLine buf' ch' := by
    intro buf ch sock line rest h
    obtain ⟨rfl, rfl⟩ := Prod.mk.inj (Option.some.inj h)
    refine ⟨?_, _, _, rfl⟩
    cases sock with
    | nil => exact le_rfl
    | cons x sock => cases x <;> exact Nat.le_succ _
  induction sock with
  | nil =>
    intro room ch buf line rest h
    cases room with
    | zero =>
      obtain ⟨rfl, rfl⟩ := Prod.mk.inj (Option.some.inj h)
      exact ⟨le_rfl, fun hroom => absurd hroom (lt_irrefl 0), _, _, rfl⟩
    | succ room =>
      rw [lineFrom] at h
      split_ifs at h
      obtain ⟨rfl, rfl⟩ := Prod.mk.inj (Option.some.inj h)
      exact ⟨le_rfl, fun _ hne => absurd rfl hne, _, _, rfl⟩
  | cons x sock ih =>
    intro room ch buf line rest h
    -- every turn takes something off the schedule
    have hturn : rest.length ≤ sock.length ∧ (∃ buf' ch', line = endLine buf' ch') →
        rest.length ≤ (x :: sock).length ∧
          (0 < room → x :: sock ≠ [] → rest.length < (x :: sock).length) ∧
          ∃ buf' ch', line = endLine buf' ch' := by
      rintro ⟨hle, hline⟩
      rw [List.length_cons]
      exact ⟨by omega, fun _ _ => by omega, hline⟩
    cases room with
    | zero =>
      cases x <;>
        exact ⟨by
          obtain ⟨-, rfl⟩ := Prod.mk.inj (Option.some.inj h)
          exact le_rfl, fun hroom => absurd hroom (lt_irrefl 0), by
          obtain ⟨rfl, -⟩ := Prod.mk.inj (Option.some.inj h)
          exact ⟨_, _, rfl⟩⟩
    | succ room =>
      cases x with
      | none =>
        rw [lineFrom] at h
        split_ifs at h
        · exact hturn (hlast _ _ _ h)
        · obtain ⟨hle, -, hline⟩ := ih h
          exact hturn ⟨hle, hline⟩
      | some c =>
        rw [lineFrom] at h
        split_ifs at h
        · obtain ⟨hle, -, hline⟩ := ih h
          exact hturn ⟨hle, hline⟩
        · exact hturn (hlast _ _ _ h)

theorem endLine_ne_nil (buf : Bytes) (ch : UInt8) : endLine buf ch ≠ [] := by
  rw [endLine]
  split_ifs <;> simp

theorem ne_nil_of_readLine {n : ℕ} {sock rest : Schedule} {line : Bytes}
    (h : readLine n sock = some (line, rest)) : line ≠ [] := by
  obtain ⟨-, -, buf, ch, rfl⟩ := lineFrom_endLine sock h
  exact endLine_ne_nil buf ch

theorem length_lt_of_readLine {n : ℕ} (hn : 0 < n) {sock rest : Schedule} {line : Bytes}
    (hsock : sock ≠ []) (h : readLine n sock = some (line, rest)) :
    rest.length < sock.length :=
  (lineFrom_endLine sock h).2.1 hn hsock

theorem returns_getLine (buf : Bytes) (w w' : World) :
    Returns (onSock (getLine SIZE)) w buf w' ↔
      ∃ rest, readLine (SIZE - 1) w.sock = some (buf, rest) ∧ w' = { w with sock := rest } := by
  simp only [returns_onSock, mem_getLine_iff]

@[simp] theorem dies_onSock {α : Type} (f : Schedule → Computation (α × Schedule)) (e : Death)
    (w w' : World) : ¬ Dies (onSock f) w e w' := dies_onPart _ _ f e w w'

@[simp] theorem dies_emit (es : List Event) (w w' : World) (e : Death) :
    ¬ Dies (emit es) w e w' := dies_modify _ w w' e

/-! ## The header loop -/

/-- The header loop reads lines of `sock` up to the first that is empty, and leaves `rest`.
What a call leaves at a gap or at the end of the stream is a line like any other. -/
inductive Header : Schedule → Schedule → Prop
  | last {sock rest : Schedule} {line : Bytes}
    (hread : readLine (SIZE - 1) sock = some (line, rest)) (hend : cstr line = [LF]) :
    Header sock rest
  | next {sock sock' rest : Schedule} {line : Bytes}
    (hread : readLine (SIZE - 1) sock = some (line, sock')) (hgo : cstr line ≠ [LF])
    (htail : Header sock' rest) : Header sock rest

theorem mem_loop_done {s : GetFileState} (h : cstr s.buf = [LF]) (rest : Schedule) :
    rest ∈ Computation.loop getFileTurn s ↔ rest = s.sock := by
  have hexit : ¬ (s.num > 0 ∧ cstr s.buf ≠ [LF]) := fun hgo => hgo.2 h
  rw [Computation.mem_loop_iff, getFileTurn, if_neg hexit]
  simp [Computation.mem_pure_iff]

/-- One turn of the loop reads a line. -/
theorem mem_loop_turn {num : ℤ} {buf : Bytes} (hnum : num > 0) (hbuf : cstr buf ≠ [LF])
    (sock rest : Schedule) :
    rest ∈ Computation.loop getFileTurn ⟨num, buf, sock⟩ ↔
      ∃ line sock', readLine (SIZE - 1) sock = some (line, sock') ∧
        rest ∈ Computation.loop getFileTurn ⟨line.length, line, sock'⟩ := by
  rw [Computation.mem_loop_iff, getFileTurn, if_pos ⟨hnum, hbuf⟩]
  simp only [Computation.mem_map_iff, mem_getLine_iff, reduceCtorEq, and_false, exists_false,
    false_or, Sum.inr.injEq, Prod.exists]
  constructor
  · rintro ⟨s', ⟨line, sock', hread, rfl⟩, hloop⟩
    exact ⟨line, sock', hread, hloop⟩
  · rintro ⟨line, sock', hread, hloop⟩
    exact ⟨_, ⟨line, sock', hread, rfl⟩, hloop⟩

theorem length_pos_of_readLine {sock rest : Schedule} {line : Bytes}
    (h : readLine (SIZE - 1) sock = some (line, rest)) : (line.length : ℤ) > 0 := by
  have := List.length_pos_iff.mpr (ne_nil_of_readLine h)
  omega

theorem header_of_mem_loop {rest : Schedule} (sock : Schedule) :
    ∀ {num : ℤ} {buf : Bytes}, num > 0 → cstr buf ≠ [LF] →
      rest ∈ Computation.loop getFileTurn ⟨num, buf, sock⟩ → Header sock rest := by
  induction hlen : sock.length using Nat.strong_induction_on generalizing sock with
  | _ k ih =>
    subst hlen
    intro num buf hnum hbuf hloop
    obtain ⟨line, sock', hread, htail⟩ := (mem_loop_turn hnum hbuf sock rest).mp hloop
    by_cases hend : cstr line = [LF]
    · obtain rfl := (mem_loop_done hend rest).mp htail
      exact .last hread hend
    · by_cases hsock : sock = []
      · have hterm := Computation.terminates_of_mem hloop
        exact absurd hterm (not_terminates_at_end hnum hbuf hsock)
      · have hlt := length_lt_of_readLine (by decide) hsock hread
        exact .next hread hend (ih _ hlt sock' rfl (length_pos_of_readLine hread) hend htail)

theorem mem_loop_of_header {sock rest : Schedule} (h : Header sock rest) :
    ∀ {num : ℤ} {buf : Bytes}, num > 0 → cstr buf ≠ [LF] →
      rest ∈ Computation.loop getFileTurn ⟨num, buf, sock⟩ := by
  induction h with
  | last hread hend =>
    intro num buf hnum hbuf
    exact (mem_loop_turn hnum hbuf _ _).mpr ⟨_, _, hread, (mem_loop_done hend _).mpr rfl⟩
  | next hread hgo _ ih =>
    intro num buf hnum hbuf
    exact (mem_loop_turn hnum hbuf _ _).mpr ⟨_, _, hread, ih (length_pos_of_readLine hread) hgo⟩

/-- **The header loop** reads what `Header` says, on any schedule. -/
theorem mem_getFileHeader_iff (sock rest : Schedule) :
    ((), rest) ∈ getFileHeader sock ↔ Header sock rest := by
  have hbuf : cstr [] ≠ [LF] := by decide
  rw [getFileHeader, Computation.mem_map_iff]
  simp only [Prod.mk.injEq, true_and, exists_eq_right]
  exact ⟨header_of_mem_loop sock one_pos hbuf, fun h => mem_loop_of_header h one_pos hbuf⟩

/-! ## What a worker does -/

/-- The worker sends nothing: the request is a CGI request, or `stat` fails on its path. -/
def Unanswered (env : Env) (r : Request) : Prop := r.cgi = true ∨ env.node r.path = none

/-- What the worker does for a file. -/
def servedEvents (env : Env) (path : Bytes) (size fd : ℕ) : List Event :=
  .opened fd :: headerEvents env path (longToInt size) ++ [.closed fd]

theorem returns_execGet (env : Env) (path : Bytes) (u : Unit) (w w' : World) :
    Returns (execGet env path) w u w' ↔
      (env.node path = none ∧ w' = w) ∨
        ∃ st rest fd, env.node path = some st ∧ Header w.sock rest ∧
          env.fopen (openedPath path st) = some fd ∧
          w' = ⟨rest, w.trace ++ servedEvents env (openedPath path st) st.size fd⟩ := by
  cases hnode : env.node path with
  | none => simp [execGet, hnode]
  | some st =>
    rw [execGet_of_some hnode, returns_execGetFile]
    simp [mem_getFileHeader_iff, servedEvents]

theorem dies_execGetFile (env : Env) (path : Bytes) (size : ℤ) (e : Death) (w w' : World) :
    Dies (execGetFile env path size) w e w' ↔
      ∃ rest, Header w.sock rest ∧ env.fopen path = none ∧ e = .fcloseNull ∧
        w' = { w with sock := rest } := by
  rw [execGetFile, dies_bind]
  simp only [dies_onSock, false_or, returns_onSock, ← mem_getFileHeader_iff]
  cases hfile : env.fopen path with
  | none =>
    simp only [openedEvents, Option.map_none, Option.toList_none, Option.isSome_none, fclose,
      Bool.false_eq_true, if_false, dies_bind, dies_emit, returns_emit, dies_throw,
      List.append_nil, false_or, true_and]
    constructor
    · rintro ⟨u, _, ⟨rest, hheader, rfl⟩, _, _, rfl, rfl, rfl⟩
      exact ⟨rest, hheader, rfl, rfl⟩
    · rintro ⟨rest, hheader, rfl, rfl⟩
      exact ⟨(), _, ⟨rest, hheader, rfl⟩, (), _, rfl, rfl, rfl⟩
  | some fd =>
    simp [openedEvents, fclose, sendHeader, dies_bind]

theorem dies_execGet (env : Env) (path : Bytes) (e : Death) (w w' : World) :
    Dies (execGet env path) w e w' ↔
      ∃ st rest, env.node path = some st ∧ Header w.sock rest ∧
        env.fopen (openedPath path st) = none ∧ e = .fcloseNull ∧ w' = { w with sock := rest } := by
  cases hnode : env.node path with
  | none => simp [execGet, hnode]
  | some st =>
    rw [execGet_of_some hnode, dies_execGetFile]
    simp

theorem returns_answer (env : Env) (line : Bytes) (u : Unit) (w w' : World) :
    Returns (answer env line) w u w' ↔
      (Unanswered env (getMethodPathUrl line) ∧
          w' = { w with trace := w.trace ++ [.closed env.client] }) ∨
        ∃ st rest fd, (getMethodPathUrl line).cgi = false ∧
          env.node (getMethodPathUrl line).path = some st ∧ Header w.sock rest ∧
          env.fopen (openedPath (getMethodPathUrl line).path st) = some fd ∧
          w' = ⟨rest, w.trace ++
            servedEvents env (openedPath (getMethodPathUrl line).path st) st.size fd ++
              [.closed env.client]⟩ := by
  unfold answer Unanswered
  cases hcgi : (getMethodPathUrl line).cgi with
  | true => simp [hcgi]
  | false =>
    simp only [hcgi, Bool.false_eq_true, not_false_iff, if_true, returns_bind, returns_emit,
      returns_execGet, false_or, true_and]
    constructor
    · rintro ⟨_, t, ⟨hnone, rfl⟩ | ⟨st, rest, fd, hnode, hheader, hfile, rfl⟩, rfl⟩
      · exact Or.inl ⟨hnone, rfl⟩
      · exact Or.inr ⟨st, rest, fd, hnode, hheader, hfile, rfl⟩
    · rintro (⟨hnone, rfl⟩ | ⟨st, rest, fd, hnode, hheader, hfile, rfl⟩)
      · exact ⟨(), _, Or.inl ⟨hnone, rfl⟩, rfl⟩
      · exact ⟨(), _, Or.inr ⟨st, rest, fd, hnode, hheader, hfile, rfl⟩, rfl⟩

theorem dies_answer (env : Env) (line : Bytes) (e : Death) (w w' : World) :
    Dies (answer env line) w e w' ↔
      ∃ st rest, (getMethodPathUrl line).cgi = false ∧
        env.node (getMethodPathUrl line).path = some st ∧ Header w.sock rest ∧
        env.fopen (openedPath (getMethodPathUrl line).path st) = none ∧ e = .fcloseNull ∧
        w' = { w with sock := rest } := by
  unfold answer
  cases hcgi : (getMethodPathUrl line).cgi with
  | true => simp [hcgi]
  | false =>
    simp only [hcgi, Bool.false_eq_true, not_false_iff, if_true, dies_bind, dies_emit, and_false,
      exists_false, or_false, dies_execGet, true_and]

/-- A line that was read is not empty, so that the request is answered. -/
theorem answer_of_readLine (env : Env) {n : ℕ} {line : Bytes} {sock rest : Schedule}
    (hread : readLine n sock = some (line, rest)) :
    (if decide (line.length ≠ 0) = true then answer env line else pure ()) = answer env line := by
  have hlen := List.length_pos_iff.mpr (ne_nil_of_readLine hread)
  rw [if_pos (decide_eq_true (by omega))]

theorem returns_acceptRequest (env : Env) (u : Unit) (w w' : World) :
    Returns (acceptRequest env) w u w' ↔
      ∃ line rest, readLine (SIZE - 1) w.sock = some (line, rest) ∧
        Returns (answer env line) { w with sock := rest } u w' := by
  simp only [acceptRequest, returns_bind, returns_getLine]
  constructor
  · rintro ⟨line, t, ⟨rest, hread, rfl⟩, hreturns⟩
    rw [answer_of_readLine env hread] at hreturns
    exact ⟨line, rest, hread, hreturns⟩
  · rintro ⟨line, rest, hread, hreturns⟩
    rw [← answer_of_readLine env hread] at hreturns
    exact ⟨line, _, ⟨rest, hread, rfl⟩, hreturns⟩

theorem dies_acceptRequest (env : Env) (e : Death) (w w' : World) :
    Dies (acceptRequest env) w e w' ↔
      ∃ line rest, readLine (SIZE - 1) w.sock = some (line, rest) ∧
        Dies (answer env line) { w with sock := rest } e w' := by
  simp only [acceptRequest, dies_bind, dies_onSock, false_or, returns_getLine]
  constructor
  · rintro ⟨line, t, ⟨rest, hread, rfl⟩, hdies⟩
    rw [answer_of_readLine env hread] at hdies
    exact ⟨line, rest, hread, hdies⟩
  · rintro ⟨line, rest, hread, hdies⟩
    rw [← answer_of_readLine env hread] at hdies
    exact ⟨line, _, ⟨rest, hread, rfl⟩, hdies⟩

theorem halts_answer (env : Env) (line : Bytes) (w : World) :
    Halts (answer env line) w ↔
      (¬ Unanswered env (getMethodPathUrl line) → ∃ rest, Header w.sock rest) := by
  simp only [halts_iff, returns_answer, dies_answer]
  constructor
  · rintro (⟨u, w', ⟨hnone, -⟩ | ⟨st, rest, fd, -, -, hheader, -⟩⟩ |
      ⟨e, w', st, rest, -, -, hheader, -⟩) hnot
    · exact absurd hnone hnot
    · exact ⟨rest, hheader⟩
    · exact ⟨rest, hheader⟩
  · intro hheader
    by_cases hnone : Unanswered env (getMethodPathUrl line)
    · exact Or.inl ⟨(), _, Or.inl ⟨hnone, rfl⟩⟩
    · obtain ⟨rest, hheader⟩ := hheader hnone
      obtain ⟨hcgi, hnode⟩ := not_or.mp hnone
      obtain ⟨st, hnode⟩ := Option.ne_none_iff_exists'.mp hnode
      have hcgi := Bool.eq_false_iff.mpr hcgi
      cases hfile : env.fopen (openedPath (getMethodPathUrl line).path st) with
      | some fd => exact Or.inl ⟨(), _, Or.inr ⟨st, rest, fd, hcgi, hnode, hheader, hfile, rfl⟩⟩
      | none => exact Or.inr ⟨.fcloseNull, _, st, rest, hcgi, hnode, hheader, hfile, rfl, rfl⟩

/-- **When a worker comes to an end.** It reads a request line, and if there is a file to send
then an empty line as well. -/
theorem halts_acceptRequest_iff (env : Env) (w : World) :
    Halts (acceptRequest env) w ↔
      ∃ line rest, readLine (SIZE - 1) w.sock = some (line, rest) ∧
        (¬ Unanswered env (getMethodPathUrl line) → ∃ rest', Header rest rest') := by
  simp only [← halts_answer env _ (World.mk _ w.trace)]
  simp only [halts_iff, returns_acceptRequest, dies_acceptRequest]
  constructor
  · rintro (⟨u, w', line, rest, hread, h⟩ | ⟨e, w', line, rest, hread, h⟩)
    · exact ⟨line, rest, hread, Or.inl ⟨u, w', h⟩⟩
    · exact ⟨line, rest, hread, Or.inr ⟨e, w', h⟩⟩
  · rintro ⟨line, rest, hread, ⟨u, w', h⟩ | ⟨e, w', h⟩⟩
    · exact Or.inl ⟨u, w', line, rest, hread, h⟩
    · exact Or.inr ⟨e, w', line, rest, hread, h⟩

/-! ## Against the other server -/

section Agree

variable {l : Bytes} {lines : List Bytes}

theorem crlfStream_eq (l : Bytes) (lines : List Bytes) :
    (requestBytes l lines).map some = crlfStream (l :: lines) := by
  simp [requestBytes, headerBlock, crlfStream, List.flatMap]

theorem crlfStream_complete (l : Bytes) (lines : List Bytes) :
    (requestBytes l lines ++ [CR, LF]).map some = crlfStream (l :: (lines ++ [[]])) := by
  simp [requestBytes, headerBlock, crlfStream, List.flatMap]

/-- The header lines are read up to the empty one. -/
theorem header_crlfStream (hlines : ∀ l ∈ lines, CrlfLine l ∧ l ≠ []) :
    Header (crlfStream (lines ++ [[]])) [] := by
  induction lines with
  | nil =>
    have hempty : CrlfLine [] := ⟨by simp, by decide⟩
    refine .last (readLine_crlf hempty (crlfStream [])) (by decide)
  | cons l lines ih =>
    obtain ⟨⟨hl, hne⟩, hlines⟩ := List.forall_mem_cons.mp hlines
    have hread := readLine_crlf hl (crlfStream (lines ++ [[]]))
    rw [← crlfStream_cons] at hread
    refine .next hread ?_ (ih hlines)
    rw [cstr_line hl.ordinary]
    simpa using hne

/-- `Accept` reads an empty line at the end of the stream. -/
theorem header_headerBlock (lines : List Bytes)
    (hlines : ∀ l ∈ lines, Server.IsHeaderLine l ∧ l.length < Server.SIZE - 1) :
    Server.Header (Server.SIZE - 1) (headerBlock lines) (lines.map (· ++ [LF]) ++ [[]]) [] := by
  induction lines with
  | nil => exact .last (Server.readLine_nil _) (Or.inl rfl)
  | cons l lines ih =>
    obtain ⟨⟨⟨hne, hw⟩, hlen⟩, hlines⟩ := List.forall_mem_cons.mp hlines
    have hread := Server.readLine_crlf hw hlen (headerBlock lines)
    have hblock := Server.headerBlock_cons_append l lines []
    rw [List.append_nil, List.append_nil] at hblock
    rw [hblock]
    exact .next hread (Server.not_endsHeader_append_LF hne) (ih hlines)

/-- Without an empty line a worker reads them for ever. -/
theorem not_header_crlfStream (hlines : ∀ l ∈ lines, CrlfLine l ∧ l ≠ []) (rest : Schedule) :
    ¬ Header (crlfStream lines) rest := by
  intro h
  have hmem := (mem_getFileHeader_iff _ _).mpr h
  have hnil := (drains_iff fun l hl => (hlines l hl).1).mp (Computation.terminates_of_mem hmem)
  exact (hlines [] hnil).2 rfl

/-- A request for a file, in lines that both servers can read at once. -/
structure StaticRequest (l : Bytes) (lines : List Bytes) : Prop where
  line : CrlfLine l
  lines : ∀ l ∈ lines, CrlfLine l ∧ l ≠ []
  supported : Supported (l ++ [LF])
  static : ¬ IsCgi (l ++ [LF])

namespace StaticRequest

variable (h : StaticRequest l lines)

include h

theorem nul_notMem : NUL ∉ l ++ [LF] := by
  rw [List.mem_append, not_or]
  exact ⟨fun hmem => (h.line.ordinary NUL hmem).ne_nul rfl, by decide⟩

/-- The parser of the worker sees it so too. -/
theorem getMethodPathUrl_eq : (getMethodPathUrl (l ++ [LF])).cgi = false ∧
    (getMethodPathUrl (l ++ [LF])).path = askedPath l := by
  obtain ⟨hcgi, hpath, -⟩ := getPathMethodQuery_eq h.nul_notMem
  rw [Epoll.getMethodPathUrl_eq, if_pos h.supported]
  exact ⟨hcgi.trans (decide_eq_false h.static), hpath⟩

theorem readLine (rest : Schedule) :
    Epoll.readLine (SIZE - 1) (l.map some ++ some CR :: some LF :: rest) = some (l ++ [LF], rest) :=
  readLine_crlf h.line rest

/-- It is one for `Accept` too, whose lines may be longer. -/
theorem toServer : Server.StaticRequest l lines where
  line := by
    have hshort : l.length < 127 := h.line.short
    have hSIZE : Server.SIZE = 1024 := rfl
    exact ⟨h.line.ordinary, by omega⟩
  lines := by
    have hSIZE : Server.SIZE = 1024 := rfl
    intro l hl
    obtain ⟨⟨hord, hshort⟩, hne⟩ := h.lines l hl
    have hshort : l.length < 127 := hshort
    exact ⟨⟨hne, hord⟩, by omega⟩
  static := h.static

variable {env : Env} {st : Node} {content : Bytes} {fd : ℕ}

/-- A worker answers it. -/
theorem returns_acceptRequest (hnode : env.node (askedPath l) = some st)
    (hfile : IsFile env (openedPath (askedPath l) st) content) (hfopen : env.fopenFd = some fd) :
    ∃ w, Returns (acceptRequest env) ⟨(requestBytes l lines ++ [CR, LF]).map some, []⟩ () w ∧
      sentBytes w.trace =
        fileMessage (bytes "COntent-Type:text/html") (fileBody env content (sizeArg st.size)) := by
  have hopened : env.fopen (openedPath (askedPath l) st) = some fd := hfile.fopen.trans hfopen
  have hread := h.readLine (crlfStream (lines ++ [[]]))
  rw [← crlfStream_cons, ← crlfStream_complete] at hread
  have hheader := header_crlfStream h.lines
  obtain ⟨hcgi, hpath⟩ := h.getMethodPathUrl_eq
  have hanswer := (returns_answer env (l ++ [LF]) () ⟨crlfStream (lines ++ [[]]), []⟩ _).mpr
    (Or.inr ⟨st, [], fd, hcgi, hpath ▸ hnode, hheader, hpath ▸ hopened, rfl⟩)
  refine ⟨_, (Epoll.returns_acceptRequest env () _ _).mpr ⟨_, _, hread, hanswer⟩, ?_⟩
  have hclosed : sentBytes [.closed env.client] = [] := rfl
  have hsize : intToSizeT (longToInt st.size) = sizeArg st.size := intToSizeT_longToInt st.size
  dsimp only
  rw [Server.sentBytes_append, hclosed, List.append_nil, List.nil_append, hpath, servedEvents,
    sentBytes_headerEvents hfile, hsize]

end StaticRequest

/-- A system where `htdocs/a` is a file. -/
def helloEnv : Env :=
  { Server.bareEnv with
    node := fun path => if path = bytes "htdocs/a" then some (.file true (bytes "hi")) else none }

theorem staticRequest_hello : StaticRequest (bytes "GET /a HTTP/1.0") [bytes "Host: a"] where
  line := ⟨Server.ordinary_of_all (by decide), by decide⟩
  lines := List.forall_mem_singleton.mpr
    ⟨⟨Server.ordinary_of_all (by decide), by decide⟩, by decide⟩
  supported := by decide
  static := by decide

theorem node_hello : helloEnv.node (askedPath (bytes "GET /a HTTP/1.0")) =
    some (.file true (bytes "hi")) := by
  have hpath : askedPath (bytes "GET /a HTTP/1.0") = bytes "htdocs/a" := by decide
  rw [hpath]
  rfl

end Agree

end FacePerception.Epoll
