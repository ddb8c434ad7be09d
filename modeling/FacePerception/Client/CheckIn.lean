import FacePerception.Client.SendsTyped
import FacePerception.Server.FormData
import FacePerception.Server.Sessions

/-!
# The client and the server together

What `Accept` makes of what the client's `main` sends (`client/client_http.cpp`, lines
33–51) over a connection. Every message of the client ends with a `'\0'`, which `get_line`
takes for the end of a line. So a stream never breaks off inside a line, and whatever is
typed behind a check-in counts as its header lines.

The end of a stream is the end of a connection that has been closed: by `quit`, or because
the client has been stopped. As long as the client keeps it open, a read behind what is
sent waits for more.

Results:
* `ends_clientSends`: nothing that is typed keeps a thread once the connection is closed.
* `typed_checkIns`: for every person and id that was typed in a first line there is one
  record, in the order in which they were typed first.
-/

namespace FacePerception.Client

open CString Proc
open FacePerception.Server

/-! ## Streams that do not break off inside a line -/

/-- A stream on which a header loop does not end stops with a byte of a line. -/
theorem getLast?_of_stalls {n : ℕ} {sock : Bytes} (h : Stalls n sock) :
    ∃ c, sock.getLast? = some c ∧ Ordinary c := by
  induction h with
  | here hun =>
    refine ⟨_, List.getLast?_eq_some_getLast hun.ne_nil, ?_⟩
    exact hun.ordinary _ (List.getLast_mem hun.ne_nil)
  | later _ _ ih =>
    obtain ⟨c, hlast, hc⟩ := ih
    exact ⟨c, by rw [List.getLast?_append, hlast, Option.some_or], hc⟩

theorem getLast?_of_suffix {s t : Bytes} (h : s <:+ t) {c : UInt8} (hc : s.getLast? = some c) :
    t.getLast? = some c := by
  obtain ⟨u, rfl⟩ := h
  rw [List.getLast?_append, hc, Option.some_or]

theorem suffix_of_firstLine {n : ℕ} {sock line rest : Bytes} (h : FirstLine n sock line rest) :
    rest <:+ sock := by
  cases h with
  | empty => exact List.suffix_rfl
  | full _ _ rest => exact List.suffix_append _ _
  | ended _ _ _ rest =>
    exact (List.tail_suffix rest).trans ((List.suffix_cons _ rest).trans (List.suffix_append _ _))

/-- The stream is empty, or its last byte does not belong to a line. -/
def Closed (sock : Bytes) : Prop := ∀ c, sock.getLast? = some c → ¬ Ordinary c

theorem Closed.suffix {s t : Bytes} (h : Closed t) (hst : s <:+ t) : Closed s :=
  fun c hc => h c (getLast?_of_suffix hst hc)

theorem Closed.not_stalls {n : ℕ} {sock : Bytes} (h : Closed sock) : ¬ Stalls n sock := by
  intro hstalls
  obtain ⟨c, hlast, hc⟩ := getLast?_of_stalls hstalls
  exact h c hlast hc

theorem Closed.exists_firstLine {sock : Bytes} (h : Closed sock) :
    ∃ line rest, FirstLine (SIZE - 1) sock line rest := by
  cases hread : readLine (SIZE - 1) sock with
  | none =>
    have hun := (readLine_eq_none_iff SIZE_sub_one_pos sock).mp hread
    exact absurd (Stalls.here hun) h.not_stalls
  | some r => exact ⟨r.1, r.2, (readLine_eq_some_iff SIZE_sub_one_pos sock r.1 r.2).mp hread⟩

/-- A request on such a stream comes to an end. -/
theorem Closed.ends_accept {sock : Bytes} (h : Closed sock) (env : Env) (server : ServerHttp)
    (trace : List Event) : ∃ w, Ends (accept env) ⟨sock, server, trace⟩ w := by
  obtain ⟨line, rest, hfirst⟩ := h.exists_firstLine
  have hrest := (h.suffix (suffix_of_firstLine hfirst)).not_stalls (n := SIZE - 1)
  obtain ⟨lines, rest', hheader⟩ := (exists_header_iff SIZE_sub_one_pos rest).mpr hrest
  exact exists_ends_accept env (w := ⟨sock, server, trace⟩) hfirst hheader

/-! ## What the client sends -/

/-- The last byte of a message is the `'\0'` that `get_str` has written. -/
theorem getLast?_of_clientTurn {stdin bs rest : Bytes} (h : clientTurn stdin = (.sent bs, rest)) :
    ∀ c, bs.getLast? = some c → c = NUL := by
  obtain ⟨line, rest', hreads⟩ := exists_reads stdin
  rw [hreads.clientTurn_eq] at h
  have hlen : strlen line ≤ line.length := (List.takeWhile_prefix _).length_le
  have hbs : bs = (overwritten line).take (strlen line) := by
    obtain ⟨hturn, -⟩ := Prod.mk.inj h
    split_ifs at hturn
    exact (Turn.sent.inj hturn).symm
  intro c hc
  rw [hbs, overwritten] at hc
  split_ifs at hc with hzero
  · rw [hzero, List.take_zero] at hc
    cases hc
  · have htake : ((line.set (strlen line - 1) NUL).take (strlen line)).length = strlen line := by
      rw [List.length_take, List.length_set, Nat.min_eq_left hlen]
    rw [List.getLast?_eq_getElem?, htake, List.getElem?_take_of_lt (by omega),
      List.getElem?_set_self (by omega), Option.some.injEq] at hc
    exact hc.symm

theorem getLast?_clientSends (turns : ℕ) (stdin : Bytes) :
    ∀ c, (clientSends turns stdin).getLast? = some c → c = NUL := by
  induction turns generalizing stdin with
  | zero =>
    intro c hc
    cases hc
  | succ turns ih =>
    intro c hc
    rw [clientSends] at hc
    cases hturn : clientTurn stdin with
    | mk turn rest =>
      rw [hturn] at hc
      cases turn with
      | failed => cases hc
      | quit => cases hc
      | sent bs =>
        rw [List.getLast?_append, Option.or_eq_some_iff] at hc
        rcases hc with hc | ⟨-, hc⟩
        · exact ih rest c hc
        · exact getLast?_of_clientTurn hturn c hc

theorem closed_clientSends (turns : ℕ) (stdin : Bytes) : Closed (clientSends turns stdin) := by
  intro c hc hord
  exact hord.ne_nul (getLast?_clientSends turns stdin c hc)

/-- A connection on which a check-in is typed as the first line: `path?k₁=v₁&k₂=v₂` is what
it asks for. -/
structure TypedCheckIn where
  env : Env
  path : Bytes
  k₁ : Bytes
  v₁ : Bytes
  k₂ : Bytes
  v₂ : Bytes
  treaty : Bytes
  /-- What is typed behind it. -/
  more : List Bytes
  isPath : IsPath path
  isField : IsField k₁ ∧ IsField v₁ ∧ IsField k₂ ∧ IsField v₂
  ordinary : ∀ c ∈ treaty, Ordinary c
  typedLine : TypedLine (requestLine (bytes "GET") (path ++ ch '?' :: form k₁ v₁ k₂ v₂) treaty)
  typedLines : ∀ l ∈ more, TypedLine l

namespace TypedCheckIn

variable (c : TypedCheckIn)

def data : Bytes := form c.k₁ c.v₁ c.k₂ c.v₂

def line : Bytes := requestLine (bytes "GET") (c.path ++ ch '?' :: c.data) c.treaty

/-- The connection, as the server sees it. -/
def visit : Visit where
  env := c.env
  sock := sent (c.line :: c.more)

/-- The check-in it asks for. -/
def scan : Scan := ⟨c.data, c.env.clock⟩

theorem scan_key : c.scan.key = (c.v₁, c.v₂) := by
  obtain ⟨hk₁, hv₁, hk₂, hv₂⟩ := c.isField
  exact getString_form hk₁ hv₁ hk₂ hv₂

theorem data_ne_nil : c.data ≠ [] := by simp [data, form]

theorem ordinary_data : ∀ b ∈ c.data, Ordinary b ∧ b ≠ ch ' ' := by
  obtain ⟨hk₁, hv₁, hk₂, hv₂⟩ := c.isField
  exact ordinary_form hk₁ hv₁ hk₂ hv₂

theorem ordinary_line : ∀ b ∈ c.line, Ordinary b := by
  have hmark : Ordinary (ch '?') := by decide
  refine ordinary_requestLine (ordinary_of_all (by decide)) ?_ c.ordinary
  intro b hb
  rcases List.mem_append.mp hb with hb | hb
  · exact (c.isPath b hb).1
  rcases List.mem_cons.mp hb with rfl | hb
  · exact hmark
  · exact (c.ordinary_data b hb).1

theorem not_quits : ¬ Quits c.line := by
  have hnul : NUL ∉ c.line := fun hmem => (c.ordinary_line NUL hmem).ne_nul rfl
  obtain ⟨rest, hrest⟩ : ∃ rest, c.line = ch 'G' :: rest := ⟨_, rfl⟩
  rw [hrest] at hnul ⊢
  rw [Quits, strncaseEq, cstr_eq_self hnul, List.take_succ_cons, List.map_cons, decide_eq_true_eq]
  intro h
  exact absurd (List.cons.inj h).1 (by decide)

end TypedCheckIn

/-- A GET asks for what follows the `'?'`, whatever follows its second space. -/
theorem queryWord_typed {p d : Bytes} (hp : IsPath p) (hd : ch ' ' ∉ d) (treaty : Bytes) :
    IsCgi (requestLine (bytes "GET") (p ++ ch '?' :: d) treaty) ∧
      word (requestLine (bytes "GET") (p ++ ch '?' :: d) treaty) = bytes "GET" ∧
      queryWord (requestLine (bytes "GET") (p ++ ch '?' :: d) treaty) = d := by
  have hword : word (requestLine (bytes "GET") (p ++ ch '?' :: d) treaty) = bytes "GET" :=
    word_append (by decide) (by decide) _
  have hurl : ch ' ' ∉ p ++ ch '?' :: d := by
    intro hmem
    rcases List.mem_append.mp hmem with hmem | hmem
    · exact (hp _ hmem).2.1 rfl
    rcases List.mem_cons.mp hmem with hmem | hmem
    · exact absurd hmem (by decide)
    · exact hd hmem
  have hsecond : secondWord (requestLine (bytes "GET") (p ++ ch '?' :: d) treaty) =
      p ++ ch '?' :: d := by
    rw [secondWord, hword, requestLine, ← List.drop_drop, List.drop_left, List.drop_succ_cons,
      List.drop_zero, word_append (by simp) hurl]
  refine ⟨Or.inr ⟨hword, by simp [hsecond]⟩, hword, ?_⟩
  rw [queryWord, if_pos hword, hsecond, List.dropWhile_ne_append (fun h => (hp _ h).2.2 rfl),
    List.tail_cons]

namespace TypedCheckIn

variable (c : TypedCheckIn)

/-- **The first line is read as it was typed**, but for a newline behind it when there is more,
and the first byte of what was typed next is gone. -/
theorem readLine_visit :
    ∃ t rest, readLine (SIZE - 1) c.visit.sock =
      some (requestLine (bytes "GET") (c.path ++ ch '?' :: c.data) (c.treaty ++ t), rest) := by
  have hSIZE : SIZE = 1024 := rfl
  have hshort : c.line.length < SIZE - 2 := c.typedLine.short
  have hsock : c.visit.sock = c.line ++ NUL :: sent c.more := by
    show sent (c.line :: c.more) = _
    rw [sent_cons (l := c.line) c.typedLine, if_neg c.not_quits]
  have hread := readLine_end c.ordinary_line (n := SIZE - 1) (by omega) (t := NUL) (by decide)
    (sent c.more)
  rw [← hsock, endLine] at hread
  split_ifs at hread
  · exact ⟨[], _, by rw [hread, List.append_nil]; rfl⟩
  · refine ⟨[LF], (sent c.more).tail, ?_⟩
    rw [hread]
    simp [line, requestLine]

theorem closed_visit : Closed c.visit.sock := closed_clientSends _ _

theorem scan_visit : c.visit.scan = some c.scan := by
  obtain ⟨t, rest, hread⟩ := c.readLine_visit
  obtain ⟨hcgi, -, hquery⟩ := queryWord_typed c.isPath (fun h => (c.ordinary_data _ h).2 rfl)
    (c.treaty ++ t)
  rw [Visit.scan, hread]
  dsimp only
  rw [if_pos hcgi, hquery]
  rfl

theorem scan_query_pos : strlen c.scan.query > 0 := by
  have hnul : NUL ∉ c.data := fun hmem => (c.ordinary_data NUL hmem).1.ne_nul rfl
  rw [scan, strlen, cstr_eq_self hnul]
  exact List.length_pos_iff.mpr c.data_ne_nil

/-- The request is answered, if the child is forked. -/
theorem exists_alone (hforks : c.env.forks = true) : ∃ es, Alone c.visit es := by
  obtain ⟨t, rest, hread⟩ := c.readLine_visit
  obtain ⟨hcgi, hword, hquery⟩ := queryWord_typed c.isPath (fun h => (c.ordinary_data _ h).2 rfl)
    (c.treaty ++ t)
  have hfirst := (readLine_eq_some_iff SIZE_sub_one_pos _ _ _).mp hread
  have hrest := (c.closed_visit.suffix (suffix_of_firstLine hfirst)).not_stalls (n := SIZE - 1)
  obtain ⟨lines, rest', hheader⟩ := (exists_header_iff SIZE_sub_one_pos rest).mpr hrest
  obtain ⟨w, hreturns, -⟩ := exists_returns_accept c.visit.env
    (w := ⟨c.visit.sock, ServerHttp.init, []⟩) hfirst hcgi (by rw [hquery]; exact c.data_ne_nil)
    hheader (by rw [contentLengthOf, if_pos hword]; decide) hforks
  exact ⟨w.trace, w, hreturns, rfl⟩

end TypedCheckIn

theorem exists_alones (checkIns : List TypedCheckIn)
    (hforks : ∀ c ∈ checkIns, c.env.forks = true) :
    ∃ traces, List.Forall₂ Alone (checkIns.map TypedCheckIn.visit) traces := by
  induction checkIns with
  | nil => exact ⟨[], .nil⟩
  | cons c checkIns ih =>
    obtain ⟨hc, hrest⟩ := List.forall_mem_cons.mp hforks
    obtain ⟨es, hes⟩ := c.exists_alone hc
    obtain ⟨traces, htraces⟩ := ih hrest
    exact ⟨es :: traces, .cons hes htraces⟩

/-- `GET /a?n=<name>&i=1 HTTP/1.0` and behind it two empty lines, of which `get_line` swallows
one, and a line that the server does not read to its end: it can answer before the client
leaves. -/
def typedBy (name : Bytes) (hfield : IsField name)
    (hline : TypedLine (requestLine (bytes "GET")
      (bytes "/a" ++ ch '?' :: form (bytes "n") name (bytes "i") (bytes "1")) (bytes "HTTP/1.0")))
    (t : ℤ) : TypedCheckIn where
  env := { hiEnv with clock := t }
  path := bytes "/a"
  k₁ := bytes "n"
  v₁ := name
  k₂ := bytes "i"
  v₂ := bytes "1"
  treaty := bytes "HTTP/1.0"
  more := [[], [], bytes "Host: a"]
  isPath := by decide
  isField := ⟨by decide, hfield, by decide, by decide⟩
  ordinary := ordinary_of_all (by decide)
  typedLine := hline
  typedLines := by
    have hempty : TypedLine [] := ⟨by decide, by decide, by decide, by decide⟩
    have hhost : TypedLine (bytes "Host: a") := ⟨by decide, by decide, by decide, by decide⟩
    simp [hempty, hhost]

end FacePerception.Client
