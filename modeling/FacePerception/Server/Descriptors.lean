import FacePerception.Server.Outcome
import Mathlib.Algebra.Order.Group.Multiset
import Mathlib.Tactic.Abel

/-!
# The descriptors of a request

What `Accept` opens and closes until it returns (`server/server_http.h`, lines
230–277, 442–463, 501–529 and 608–657).

Results:
* `accept_settles_iff`: which requests end with every descriptor they opened, and the
  client's, closed exactly once, and nothing else closed.
* `static_file_leaks`: a file that is served is not one of them.
-/

namespace FacePerception.Server

open CString Proc

/-- `s` are the descriptors still to be closed: every `close` is of one of them, and
in the end none is left. -/
def Settles : Multiset ℕ → List Event → Prop
  | s, [] => s = 0
  | s, .opened fd :: es => Settles (fd ::ₘ s) es
  | s, .closed fd :: es => fd ∈ s ∧ Settles (s.erase fd) es
  | s, .sent _ :: es => Settles s es
  | s, .written _ _ :: es => Settles s es

/-- `open`, `fopen`, `pipe` and `close`. -/
def Event.isFd : Event → Bool
  | .opened _ => true
  | .closed _ => true
  | .sent _ => false
  | .written _ _ => false

def Event.isOpened : Event → Bool
  | .opened _ => true
  | _ => false

def Event.isClosed : Event → Bool
  | .closed _ => true
  | _ => false

/-- Only opening and closing matters. -/
theorem settles_filter (s : Multiset ℕ) (es : List Event) :
    Settles s (es.filter Event.isFd) ↔ Settles s es := by
  induction es generalizing s with
  | nil => rfl
  | cons e es ih =>
    cases e with
    | opened fd => exact ih (fd ::ₘ s)
    | closed fd => exact and_congr_right fun _ => ih (s.erase fd)
    | sent bs => exact ih s
    | written fd c => exact ih s

/-- As many are closed as were to be closed and were opened. -/
theorem Settles.countP {s : Multiset ℕ} {es : List Event} (h : Settles s es) :
    es.countP Event.isClosed = s.card + es.countP Event.isOpened := by
  induction es generalizing s with
  | nil =>
    rw [Settles] at h
    simp [h]
  | cons e es ih =>
    cases e with
    | opened fd =>
      have h' := ih (s := fd ::ₘ s) h
      rw [Multiset.card_cons] at h'
      simp only [List.countP_cons, Event.isClosed, Event.isOpened, h']
      simp only [if_true, Bool.false_eq_true, if_false]
      omega
    | closed fd =>
      obtain ⟨hmem, hrest⟩ := h
      have h' := ih hrest
      have hcard := Multiset.card_erase_add_one hmem
      simp only [List.countP_cons, Event.isClosed, Event.isOpened, h']
      simp only [if_true, Bool.false_eq_true, if_false]
      omega
    | sent bs => simpa [List.countP_cons, Event.isClosed, Event.isOpened] using ih (s := s) h
    | written fd c => simpa [List.countP_cons, Event.isClosed, Event.isOpened] using ih (s := s) h

/-- What is to be closed may be closed in any order. -/
theorem settles_closed (fds : List ℕ) : Settles fds (fds.map Event.closed) := by
  induction fds with
  | nil => rfl
  | cons fd fds ih =>
    refine ⟨by simp, ?_⟩
    simpa using ih

/-! ## What the parts of a request open and close -/

variable (env : Env)

theorem filter_cgiHeaderEvents : cgiHeaderEvents.filter Event.isFd = [] := rfl

theorem filter_pipeEvents : (pipeEvents env).filter Event.isFd = pipeEvents env := by
  unfold pipeEvents
  split_ifs <;> rfl

theorem filter_exchangeEvents (path method query : Bytes) (contentLength : ℤ) (body : Bytes) :
    (exchangeEvents env path method query contentLength body).filter Event.isFd =
      pipeEvents env ++ [.closed env.cgiInput.1, .closed env.cgiOutput.2, .closed env.cgiInput.2,
        .closed env.cgiOutput.1] := by
  have hwritten : (body.map fun c => Event.written env.cgiInput.2 c).filter Event.isFd = [] := by
    simp [Event.isFd]
  have hsent : ((cgiText env path method query contentLength body).map
      fun c => Event.sent [c]).filter Event.isFd = [] := by
    simp [Event.isFd]
  simp [exchangeEvents, filter_cgiHeaderEvents, filter_pipeEvents, List.filter_cons, hwritten,
    hsent, Event.isFd]

/-- A CGI exchange keeps the discipline when both pipes are there. -/
theorem settles_exchange (path method query : Bytes) (contentLength : ℤ) (body : Bytes) :
    Settles {env.client} (exchangeEvents env path method query contentLength body ++
        [.closed env.client]) ↔ env.inputPipe ≠ none ∧ env.outputPipe ≠ none := by
  rw [← settles_filter, List.filter_append, filter_exchangeEvents]
  cases hin : env.inputPipe with
  | none =>
    constructor
    · intro h
      have hcount := h.countP
      cases hout : env.outputPipe <;>
        simp [pipeEvents, hin, hout, List.countP_cons, List.filter_cons, Event.isClosed,
          Event.isOpened, Event.isFd] at hcount
    · intro h
      exact absurd rfl h.1
  | some input =>
    cases hout : env.outputPipe with
    | none =>
      constructor
      · intro h
        have hcount := h.countP
        simp [pipeEvents, hin, hout, List.countP_cons, List.filter_cons, Event.isClosed,
          Event.isOpened, Event.isFd] at hcount
      · intro h
        exact absurd rfl h.2
    | some output =>
      refine iff_of_true ?_ (by simp)
      simp only [pipeEvents, hin, hout, Env.cgiInput, Env.cgiOutput, Option.isSome_some, if_true,
        Option.getD_some]
      show Settles (output.2 ::ₘ output.1 ::ₘ input.2 ::ₘ input.1 ::ₘ {env.client})
        ([input.1, output.2, input.2, output.1, env.client].map Event.closed)
      have hall : output.2 ::ₘ output.1 ::ₘ input.2 ::ₘ input.1 ::ₘ {env.client} =
          (([input.1, output.2, input.2, output.1, env.client] : List ℕ) : Multiset ℕ) := by
        simp only [← Multiset.cons_coe, ← Multiset.singleton_add, Multiset.coe_nil]
        abel
      rw [hall]
      exact settles_closed _

theorem filter_headerEvents (path : Bytes) (size : ℕ) :
    (headerEvents env path size).filter Event.isFd = openedEvents (env.openFile path) := by
  unfold headerEvents sendfileEvents openedEvents
  cases env.openFile path with
  | none => rfl
  | some fd => split <;> rfl

/-- A file that is served keeps the discipline when `send_header` cannot open it. -/
theorem settles_file (fd : ℕ) (path : Bytes) (size : ℕ) :
    Settles {env.client} (.opened fd :: headerEvents env path size ++ [.closed fd] ++
        [.closed env.client]) ↔ env.openFile path = none := by
  rw [← settles_filter]
  simp only [List.filter_append, List.filter_cons, List.filter_nil, Event.isFd, if_true,
    List.cons_append, filter_headerEvents]
  unfold openedEvents
  cases env.openFile path with
  | none => exact iff_of_true (settles_closed [fd, env.client]) rfl
  | some fd' =>
    constructor
    · intro h
      have hcount := h.countP
      simp [List.countP_cons, Event.isClosed, Event.isOpened] at hcount
    · intro h
      cases h

/-! ## The discipline -/

/-- A request with the line `line`, and `rest` behind it, closes what it opens: a CGI
request gets both its pipes, unless it announces a content length of -1; a static one
names nothing, or something `send_header` cannot open. -/
def ClosesAll (line rest : Bytes) : Prop :=
  if IsCgi line then
    (env.inputPipe ≠ none ∧ env.outputPipe ≠ none) ∨ ∀ lines rest',
      Header (SIZE - 1) rest lines rest' → contentLengthOf (word line) lines = -1
  else
    ∀ st, env.node (resourcePath (resource line)) = some st →
      env.openFile (servedPath line st) = none

theorem settles_answer {line : Bytes} (h : NUL ∉ line) {u : Unit} {w w' : World}
    (hreturns : Returns (answer env line) w u w') :
    ∃ es, w'.trace = w.trace ++ es ∧
      (Settles {env.client} (es ++ [.closed env.client]) ↔ ClosesAll env line w.sock) := by
  have hnone : Settles {env.client} ([] ++ [.closed env.client]) := settles_closed [env.client]
  unfold ClosesAll
  by_cases hcgi : IsCgi line
  · rw [if_pos hcgi]
    obtain ⟨server, lines, rest, -, hheader, ⟨hminus, rfl⟩ | ⟨hminus, -, rfl⟩⟩ :=
      (returns_answer_of_cgi env h hcgi u w w').mp hreturns
    · refine ⟨[], by simp, iff_of_true hnone (Or.inr fun lines' rest' hheader' => ?_)⟩
      obtain ⟨rfl, -⟩ := hheader'.unique hheader
      exact hminus
    · refine ⟨_, rfl, ?_⟩
      rw [settles_exchange]
      constructor
      · exact Or.inl
      · rintro (hpipes | hall)
        · exact hpipes
        · exact absurd (hall lines rest hheader) hminus
  · rw [if_neg hcgi]
    rcases (returns_answer_of_static env h hcgi u w w').mp hreturns with
      ⟨hnode, rfl⟩ | ⟨st, lines, rest, fd, hnode, -, -, rfl⟩
    · exact ⟨[], by simp, iff_of_true hnone (by simp [hnode])⟩
    · refine ⟨.opened fd :: headerEvents env (servedPath line st) st.size ++ [.closed fd],
        List.append_assoc .., ?_⟩
      rw [settles_file]
      simp [hnode]

/-- **Descriptor discipline.** When `Accept` returns, every descriptor opened while it
handled the request and the client's have been closed exactly once, and no other,
exactly for the requests that `ClosesAll` describes. -/
theorem accept_settles_iff {u : Unit} {w w' : World} (h : Returns (accept env) w u w')
    {es : List Event} (htrace : w'.trace = w.trace ++ es) :
    Settles {env.client} es ↔
      ∀ line rest, FirstLine (SIZE - 1) w.sock line rest → ClosesAll env line rest := by
  obtain ⟨line, rest, w₁, hfirst, hanswer, rfl⟩ := (returns_accept_iff env u w w').mp h
  obtain ⟨es₁, htrace₁, hsettles⟩ :=
    settles_answer env (hfirst.line SIZE_sub_one_pos).nul_notMem hanswer
  have hes : es₁ ++ [.closed env.client] = es := by
    rw [htrace₁, List.append_assoc] at htrace
    exact List.append_cancel_left htrace
  rw [← hes, hsettles]
  constructor
  · intro hcloses line' rest' hfirst'
    obtain ⟨rfl, rfl⟩ := hfirst.unique SIZE_sub_one_pos hfirst'
    exact hcloses
  · intro hall
    exact hall line rest hfirst

/-- A check-in with `GET`. -/
theorem accept_settles_iff_example :
    ∃ w', Returns (accept bareEnv) ⟨bytes "GET /a?n=1&i=2 HTTP/1.0" ++ [CR, LF, CR, LF],
        ServerHttp.init, []⟩ () w' ∧ Settles {bareEnv.client} w'.trace := by
  have hfirst : FirstLine (SIZE - 1) (bytes "GET /a?n=1&i=2 HTTP/1.0" ++ [CR, LF, CR, LF])
      (bytes "GET /a?n=1&i=2 HTTP/1.0" ++ [LF]) [CR, LF] :=
    .ended (by decide) (ordinary_of_all (by decide)) (by decide) [LF, CR, LF]
  obtain ⟨w', hreturns, -⟩ := exists_returns_accept bareEnv
    (w := ⟨bytes "GET /a?n=1&i=2 HTTP/1.0" ++ [CR, LF, CR, LF], ServerHttp.init, []⟩) hfirst
    (by decide) (by decide) (header_empty_line SIZE_sub_one_pos []) (by decide) rfl
  refine ⟨w', hreturns, (accept_settles_iff bareEnv hreturns rfl).mpr fun line rest _ => ?_⟩
  unfold ClosesAll
  split_ifs
  · exact Or.inl ⟨by decide, by decide⟩
  · intro st hst
    cases hst

/-- A system with the file `htdocs/a`. -/
def fileEnv : Env :=
  { bareEnv with
    node := fun path => if path = bytes "htdocs/a" then some (.file true (bytes "x")) else none }

/-- The file `htdocs/a` is served, and the descriptor `send_header` has opened stays open. -/
theorem static_file_leaks :
    ∃ w', Returns (accept fileEnv) ⟨bytes "GET /a HTTP/1.0" ++ [CR, LF, CR, LF],
        ServerHttp.init, []⟩ () w' ∧ ¬ Settles {fileEnv.client} w'.trace := by
  have hfirst : FirstLine (SIZE - 1) (bytes "GET /a HTTP/1.0" ++ [CR, LF, CR, LF])
      (bytes "GET /a HTTP/1.0" ++ [LF]) [CR, LF] :=
    .ended (by decide) (ordinary_of_all (by decide)) (by decide) [LF, CR, LF]
  have hpath : resourcePath (resource (bytes "GET /a HTTP/1.0" ++ [LF])) = bytes "htdocs/a" := by
    decide +kernel
  have hnode : fileEnv.node (resourcePath (resource (bytes "GET /a HTTP/1.0" ++ [LF]))) =
      some (.file true (bytes "x")) := by
    rw [hpath]
    simp [fileEnv]
  have hreturns := (returns_accept_iff fileEnv ()
    ⟨bytes "GET /a HTTP/1.0" ++ [CR, LF, CR, LF], ServerHttp.init, []⟩ _).mpr
    ⟨_, _, _, hfirst, (returns_answer_of_static fileEnv (by decide) (by decide) _ _ _).mpr
      (Or.inr ⟨.file true (bytes "x"), [[LF]], [], 5, hnode,
        header_empty_line SIZE_sub_one_pos [], by decide +kernel, rfl⟩), rfl⟩
  refine ⟨_, hreturns, fun hsettles => ?_⟩
  have hopen := (settles_file fileEnv 5 _ _).mp hsettles
  exact absurd hopen (by decide +kernel)

end FacePerception.Server
