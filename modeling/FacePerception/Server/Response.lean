import FacePerception.Lib.HttpMessage
import FacePerception.Server.Outcome

/-!
# What a CGI request is answered with

The bytes that `exec_cgi` sends to the client (`server/server_http.h`, lines
425–439, 463–501 and 520–528). The first `send` already ends the header, so what the
next three send is part of the body, and so is what the child prints on the pipe
before its `execl`.

Results:
* `message_exchange`: the message the client gets.
* `cgi_response`: it is never the header `exec_cgi` writes and the program's output.
-/

namespace FacePerception.Server

open CString Proc HttpMessage

/-- The bytes an event sends to the client. -/
def Event.sentBytes : Event → Bytes
  | .sent bs => bs
  | _ => []

/-- The bytes that are sent to the client. -/
def sentBytes (es : List Event) : Bytes := es.flatMap Event.sentBytes

/-- `bs` is a response with a header of `Server` and `Content-Type`, and the body `o`. -/
def AnswersWith (bs o : Bytes) : Prop :=
  ∃ status fields, Message bs status fields o ∧
    fields.map fieldName = [bytes "Server", bytes "Content-Type"]

theorem sentBytes_append (es es' : List Event) :
    sentBytes (es ++ es') = sentBytes es ++ sentBytes es' := List.flatMap_append

theorem sentBytes_pipeEvents (env : Env) : sentBytes (pipeEvents env) = [] := by
  unfold pipeEvents
  split_ifs <;> rfl

theorem sentBytes_sent (bs : Bytes) : sentBytes (bs.map fun c => Event.sent [c]) = bs := by
  simp [sentBytes, List.flatMap_map, Event.sentBytes]

theorem sentBytes_written (fd : ℕ) (bs : Bytes) :
    sentBytes (bs.map fun c => Event.written fd c) = [] := by
  simp [sentBytes, List.flatMap_map, Event.sentBytes]

variable (env : Env)

theorem sentBytes_exchangeEvents (path method query : Bytes) (contentLength : ℤ) (body : Bytes) :
    sentBytes (exchangeEvents env path method query contentLength body) =
      bytes "HTTP/1.1 200 OK" ++ CR :: LF :: CR :: LF :: (SERVER_STRING ++
        (bytes "Content-Type:text/html" ++ [CR, LF]) ++ [CR, LF] ++
        cgiText env path method query contentLength body) := by
  have hheader : sentBytes cgiHeaderEvents = bytes "HTTP/1.1 200 OK" ++ CR :: LF :: CR :: LF ::
      (SERVER_STRING ++ (bytes "Content-Type:text/html" ++ [CR, LF]) ++ [CR, LF]) := by
    decide +kernel
  have hclosed : ∀ fd fd' : ℕ, sentBytes [.closed fd, .closed fd'] = [] := fun _ _ => rfl
  simp only [exchangeEvents, sentBytes_append, hheader, sentBytes_pipeEvents, hclosed,
    sentBytes_written, sentBytes_sent]
  simp

/-- **The message the client gets**: no header at all, and a body that begins with the
header lines. -/
theorem message_answered (line : Bytes) (contentLength : ℤ) (sock : Bytes) :
    Message (sentBytes (answeredEvents env line contentLength sock))
      (bytes "HTTP/1.1 200 OK") []
      (SERVER_STRING ++ (bytes "Content-Type:text/html" ++ [CR, LF]) ++ [CR, LF] ++
        cgiText env (resourcePath (resource line)) (word line) (queryWord line) contentLength
          (copied env (word line) contentLength sock).1) := by
  rw [answeredEvents, sentBytes_append, sentBytes_exchangeEvents,
    show sentBytes [.closed env.client] = [] from rfl, List.append_nil]
  refine ⟨_, crlfLine_append (by decide) _, .empty ?_⟩
  exact crlfLine_append (w := []) (by decide) _

theorem not_answersWith {bs start body : Bytes} (h : Message bs start [] body) (o : Bytes) :
    ¬ AnswersWith bs o := by
  rintro ⟨status, fields, hanswers, hnames⟩
  obtain ⟨-, rfl, -⟩ := h.unique hanswers
  cases hnames

/-- **The response of a CGI request.** For every request that reaches the exchange, the
client gets no header at all, and a body that begins with the header lines and with
what the child prints; it is never a response with `Server` and `Content-Type` and the
output of the program, whatever that is. -/
theorem cgi_response {w w' : World} {u : Unit} {line rest rest' : Bytes} {lines : List Bytes}
    (hfirst : FirstLine (SIZE - 1) w.sock line rest) (hcgi : IsCgi line)
    (hheader : Header (SIZE - 1) rest lines rest')
    (hminus : contentLengthOf (word line) lines ≠ -1)
    (hreturns : Returns (accept env) w u w') {es : List Event}
    (htrace : w'.trace = w.trace ++ es) :
    Message (sentBytes es) (bytes "HTTP/1.1 200 OK") []
        (SERVER_STRING ++ (bytes "Content-Type:text/html" ++ [CR, LF]) ++ [CR, LF] ++
          cgiText env (resourcePath (resource line)) (word line) (queryWord line)
            (contentLengthOf (word line) lines)
            (copied env (word line) (contentLengthOf (word line) lines) rest').1) ∧
      ∀ o, ¬ AnswersWith (sentBytes es) o := by
  have hes := trace_of_returns_accept env hfirst hcgi hheader hminus hreturns
  rw [htrace] at hes
  rw [List.append_cancel_left hes]
  have hmessage := message_answered env line (contentLengthOf (word line) lines) rest'
  exact ⟨hmessage, not_answersWith hmessage⟩

/-- A system whose CGI programs write `hi`. -/
def hiEnv : Env := { bareEnv with program := fun _ _ _ => bytes "hi" }

theorem firstLine_checkIn :
    FirstLine (SIZE - 1) (bytes "GET /a?n=1&i=2 HTTP/1.0" ++ [CR, LF, CR, LF])
      (bytes "GET /a?n=1&i=2 HTTP/1.0" ++ [LF]) [CR, LF] :=
  .ended (by decide) (ordinary_of_all (by decide)) (by decide) [LF, CR, LF]

/-- The check-in `GET /a?n=1&i=2` is answered. -/
theorem returns_checkIn :
    ∃ w', Returns (accept hiEnv) ⟨bytes "GET /a?n=1&i=2 HTTP/1.0" ++ [CR, LF, CR, LF],
        ServerHttp.init, []⟩ () w' ∧
      w'.trace = [] ++ answeredEvents hiEnv (bytes "GET /a?n=1&i=2 HTTP/1.0" ++ [LF]) 0 [] :=
  exists_returns_accept hiEnv firstLine_checkIn (by decide) (by decide)
    (header_empty_line SIZE_sub_one_pos []) (by decide) rfl

theorem cgi_response_example :
    ∃ w', Returns (accept hiEnv) ⟨bytes "GET /a?n=1&i=2 HTTP/1.0" ++ [CR, LF, CR, LF],
        ServerHttp.init, []⟩ () w' ∧ ∀ o, ¬ AnswersWith (sentBytes w'.trace) o := by
  obtain ⟨w', hreturns, -⟩ := returns_checkIn
  exact ⟨w', hreturns, (cgi_response hiEnv firstLine_checkIn (by decide)
    (header_empty_line SIZE_sub_one_pos []) (by decide) hreturns rfl).2⟩

/-- A program writes `hi`, and the client does not get it as the body of a response. -/
theorem cgi_response_without_header :
    ∃ w', Returns (accept hiEnv) ⟨bytes "GET /a?n=1&i=2 HTTP/1.0" ++ [CR, LF, CR, LF],
        ServerHttp.init, []⟩ () w' ∧ ¬ AnswersWith (sentBytes w'.trace) (bytes "hi") := by
  obtain ⟨w', hreturns, htrace⟩ := returns_checkIn
  refine ⟨w', hreturns, ?_⟩
  rw [htrace, List.nil_append]
  exact not_answersWith (message_answered hiEnv _ 0 []) _

end FacePerception.Server
