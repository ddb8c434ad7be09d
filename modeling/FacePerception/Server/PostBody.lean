import FacePerception.Server.Accept

/-!
# The body of a POST request

What `exec_cgi` makes of a `Content-Length:` line and of the body behind the
headers (`server/server_http.h`, lines 409–417 and 507–519).

Results:
* `contentLength_header`: the content length it reads, which misses the byte right
  behind the colon.
* `post_delivery_iff`: when the body reaches the CGI program.
-/

namespace FacePerception.Server

open CString Proc

/-! ## The content length -/

/-- The header line that announces `n` bytes, with `k` spaces behind the colon. -/
def contentLengthLine (k n : ℕ) : Bytes :=
  contentLengthStr ++ (List.replicate k (ch ' ') ++ decimal n)

/-- What `exec_cgi` takes for the content length. -/
def announced (k n : ℕ) : ℕ := if k = 0 then digitsValue (decimal n).tail else n

theorem announced_eq_iff (k n : ℕ) : announced k n = n ↔ 1 ≤ k ∨ n = 0 := by
  unfold announced
  split_ifs with hk
  · rcases Nat.eq_zero_or_pos n with rfl | hn
    · simp [decimal, digitsValue]
    · have := digitsValue_tail_lt hn
      omega
  · omega

theorem announced_le (k n : ℕ) : announced k n ≤ n := by
  unfold announced
  split_ifs
  · rcases Nat.eq_zero_or_pos n with rfl | hn
    · simp [decimal, digitsValue]
    · exact (digitsValue_tail_lt hn).le
  · exact le_rfl

/-- `atoi(&buf[len+1])` on the line: the byte right behind the colon is skipped. -/
theorem atoi_drop_contentLengthLine (k : ℕ) {n : ℕ} (hn : n < 2 ^ 31) :
    atoi ((contentLengthLine k n ++ [LF]).drop (contentLengthStr.length + 1)) = announced k n := by
  have hLF : ∀ c ∈ [LF].head?, isDigit c = false := by
    intro c hc
    rw [List.head?_cons, Option.mem_some_iff] at hc
    rw [← hc]
    rfl
  rw [contentLengthLine, List.append_assoc, List.append_assoc, List.drop_append,
    List.drop_of_length_le (by omega), List.nil_append, Nat.add_sub_cancel_left]
  unfold announced
  cases k with
  | zero =>
    rw [if_pos rfl, List.replicate_zero, List.nil_append,
      List.drop_append_of_le_length (List.length_pos_iff.mpr (decimal_ne_nil n)), List.drop_one]
    by_cases hnil : (decimal n).tail = []
    · rw [hnil]
      decide
    · have hle := announced_le 0 n
      rw [announced, if_pos rfl] at hle
      exact atoi_spaces_digits 0 _ _ hnil
        (fun c hc => isDigit_decimal n c (List.mem_of_mem_tail hc)) hLF (by omega)
  | succ k =>
    rw [if_neg (by omega), List.replicate_succ, List.cons_append, List.drop_succ_cons,
      List.drop_zero]
    exact atoi_spaces_decimal k hn [LF] hLF

/-- A header line sets the content length iff it begins with `Content-Length:`. -/
theorem takeContentLength_eq {l : Bytes} (hl : ∀ c ∈ l, Ordinary c) (contentLength : ℤ) :
    takeContentLength contentLength (l ++ [LF]) =
      if contentLengthStr <+: l then atoi ((l ++ [LF]).drop (contentLengthStr.length + 1))
      else contentLength := by
  have hlen : strlen contentLengthStr = contentLengthStr.length := by decide
  have hcstr : cstr contentLengthStr = contentLengthStr := by decide
  have hline : Line l.length (l ++ [LF]) := ⟨l, hl, Or.inr ⟨le_rfl, rfl⟩⟩
  have hiff : strncmpEq (l ++ [LF]) contentLengthStr contentLengthStr.length = true ↔
      contentLengthStr <+: l := by
    rw [strncmpEq, decide_eq_true_eq, cstr_eq_self hline.nul_notMem, hcstr, List.take_length,
      eq_comm, ← List.prefix_iff_eq_take, List.prefix_concat_iff, or_iff_right]
    intro heq
    have hmem : LF ∈ contentLengthStr := by
      rw [heq]
      simp
    exact absurd hmem (by decide)
  simp only [takeContentLength, hlen, hiff]

theorem foldl_takeContentLength (lines : List Bytes)
    (hlines : ∀ l ∈ lines, (∀ c ∈ l, Ordinary c) ∧ ¬ contentLengthStr <+: l) :
    ∀ contentLength : ℤ,
      (lines.map (· ++ [LF])).foldl takeContentLength contentLength = contentLength := by
  induction lines with
  | nil => intro contentLength; rfl
  | cons l lines ih =>
    intro contentLength
    obtain ⟨⟨hl, hprefix⟩, hlines⟩ := List.forall_mem_cons.mp hlines
    rw [List.map_cons, List.foldl_cons, takeContentLength_eq hl, if_neg hprefix]
    exact ih hlines contentLength

theorem contentLengthLine_ne_nil (k n : ℕ) : contentLengthLine k n ≠ [] :=
  List.append_ne_nil_of_left_ne_nil (by decide) _

theorem ordinary_contentLengthLine (k n : ℕ) : ∀ c ∈ contentLengthLine k n, Ordinary c := by
  have hname : ∀ c ∈ contentLengthStr, Ordinary c := ordinary_of_all (by decide)
  intro c hc
  rw [contentLengthLine] at hc
  rcases List.mem_append.mp hc with hc | hc
  · exact hname c hc
  rcases List.mem_append.mp hc with hc | hc
  · rw [List.eq_of_mem_replicate hc]
    decide
  · obtain ⟨-, -, -, -, h⟩ := isDigit_ne (isDigit_decimal n c hc)
    exact h

/-- **The content length** behind header lines one of which announces `n` bytes. -/
theorem contentLength_header (before after : List Bytes) (k : ℕ) {n : ℕ} (hn : n < 2 ^ 31)
    (hlines : ∀ l ∈ before ++ after, (∀ c ∈ l, Ordinary c) ∧ ¬ contentLengthStr <+: l) :
    ((before ++ contentLengthLine k n :: after).map (· ++ [LF]) ++ [[LF]]).foldl
      takeContentLength 0 = announced k n := by
  have hbefore := foldl_takeContentLength before fun l hl => hlines l (by simp [hl])
  have hafter := foldl_takeContentLength after fun l hl => hlines l (by simp [hl])
  have hlast : ∀ contentLength : ℤ, takeContentLength contentLength [LF] = contentLength := by
    intro contentLength
    have := takeContentLength_eq (l := []) (by simp) contentLength
    rwa [if_neg (by decide)] at this
  simp only [List.map_append, List.map_cons, List.foldl_append, List.foldl_cons, List.foldl_nil,
    hbefore, hafter, hlast]
  have hprefix : contentLengthStr <+: contentLengthLine k n := List.prefix_append _ _
  rw [takeContentLength_eq (ordinary_contentLengthLine k n), if_pos hprefix,
    atoi_drop_contentLengthLine k hn]

/-! ## The copy loop -/

theorem length_copyBody (n : ℕ) : ∀ (ch : UInt8) (sock : Bytes),
    (copyBody n ch sock).1.length = n := by
  induction n with
  | zero => intro ch sock; rfl
  | succ n ih =>
    intro ch sock
    simp only [copyBody, List.length_cons, ih]

theorem length_copied (env : Env) (method : Bytes) (contentLength : ℤ) (sock : Bytes) :
    (copied env method contentLength sock).1.length =
      if strcaseEq method (bytes "POST") then contentLength.toNat else 0 := by
  unfold copied
  split_ifs
  · exact length_copyBody _ _ _
  · rfl

theorem copyBody_of_le (n : ℕ) : ∀ (ch : UInt8) (sock : Bytes), n ≤ sock.length →
    (copyBody n ch sock).1 = sock.take n := by
  induction n with
  | zero => intro ch sock _; rfl
  | succ n ih =>
    intro ch sock hn
    cases sock with
    | nil => simp at hn
    | cons c sock =>
      rw [List.length_cons] at hn
      simp only [copyBody, recv, List.take_succ_cons, ih c sock (by omega)]

/-- The loop copies what there is exactly if there is as much as announced: `ch` is
written again where the client has closed. -/
theorem copyBody_eq_take_iff (n : ℕ) (ch : UInt8) (sock : Bytes) :
    (copyBody n ch sock).1 = sock.take (min n sock.length) ↔ n ≤ sock.length := by
  constructor
  · intro h
    have hlen := congrArg List.length h
    rw [length_copyBody, List.length_take] at hlen
    omega
  · intro hn
    rw [copyBody_of_le n ch sock hn, Nat.min_eq_left hn]

/-! ## Delivery -/

/-- The byte a `write` puts into `cgi_input`. -/
def Event.writtenByte : Event → Option UInt8
  | .written _ c => some c
  | _ => none

/-- The bytes that `write(cgi_input[1],&ch,1)` has been called with so far. Where the pipe has
failed, that is descriptor 0. -/
def World.written (w : World) : Bytes := w.trace.filterMap Event.writtenByte

theorem writtenByte_pipeEvents (env : Env) :
    (pipeEvents env).filterMap Event.writtenByte = [] := by
  rw [pipeEvents]
  split_ifs <;> rfl

/-- The father's branch writes what it has copied. -/
theorem written_exchanged (env : Env) (path method query : Bytes) (contentLength : ℤ)
    (w : World) :
    (exchanged env path method query contentLength w).written =
      w.written ++ (copied env method contentLength w.sock).1 := by
  have hbody : ∀ body : Bytes, (body.map fun c => Event.written env.cgiInput.2 c).filterMap
      Event.writtenByte = body := by
    intro body
    rw [List.filterMap_map]
    exact List.filterMap_some
  have hsent : ∀ text : Bytes, (text.map fun c => Event.sent [c]).filterMap
      Event.writtenByte = [] := by
    intro text
    rw [List.filterMap_map]
    show text.filterMap (fun _ => none) = []
    exact List.filterMap_none text
  have hheader : cgiHeaderEvents.filterMap Event.writtenByte = [] := rfl
  have hclosed : ∀ fd fd', [Event.closed fd, .closed fd'].filterMap Event.writtenByte = [] := by
    intro fd fd'
    rfl
  simp only [World.written, exchanged, exchangeEvents, List.filterMap_append, hheader,
    writtenByte_pipeEvents, hclosed, hbody, hsent, List.nil_append, List.append_nil]

/-- Where the fork fails, nothing is written. -/
theorem writtenByte_exitEvents (env : Env) :
    (exitEvents env).filterMap Event.writtenByte = [] := by
  rw [exitEvents, List.filterMap_append, List.filterMap_append, writtenByte_pipeEvents]
  rfl

section Request

variable (env : Env) (path method query : Bytes) (before after : List Bytes) (k n : ℕ)

/-- The headers of a request that announces `n` bytes, the empty line behind them and
the body. -/
def postRequest (body : Bytes) : Bytes :=
  headerBlock (before ++ contentLengthLine k n :: after) ++ CR :: LF :: body

/-- Header lines `before` and `after` the one that announces `n` bytes, all of them
shorter than `SIZE-1` bytes. -/
structure Announces : Prop where
  bound : n < 2 ^ 31
  length_lt : (contentLengthLine k n).length < SIZE - 1
  others : ∀ l ∈ before ++ after,
    IsHeaderLine l ∧ l.length < SIZE - 1 ∧ ¬ contentLengthStr <+: l

variable {before after k n}

theorem Announces.header (h : Announces before after k n) (body : Bytes) :
    Header (SIZE - 1) (postRequest before after k n body)
      ((before ++ contentLengthLine k n :: after).map (· ++ [LF]) ++ [[LF]]) body := by
  apply header_block SIZE_sub_one_pos
  intro l hl
  rcases List.mem_append.mp hl with hl | hl
  · obtain ⟨hline, hlen, -⟩ := h.others l (List.mem_append_left _ hl)
    exact ⟨hline, hlen⟩
  rcases List.mem_cons.mp hl with rfl | hl
  · exact ⟨⟨contentLengthLine_ne_nil k n, ordinary_contentLengthLine k n⟩, h.length_lt⟩
  · obtain ⟨hline, hlen, -⟩ := h.others l (List.mem_append_right _ hl)
    exact ⟨hline, hlen⟩

theorem Announces.contentLength (h : Announces before after k n) :
    ((before ++ contentLengthLine k n :: after).map (· ++ [LF]) ++ [[LF]]).foldl
      takeContentLength 0 = announced k n := by
  apply contentLength_header before after k h.bound
  intro l hl
  obtain ⟨hline, -, hprefix⟩ := h.others l hl
  exact ⟨hline.2, hprefix⟩

/-- What the header loop of `exec_cgi` makes of the request. -/
theorem Announces.mem_postHeader (h : Announces before after k n) (contentLength : ℤ)
    (body rest : Bytes) :
    (contentLength, rest) ∈ postHeader (postRequest before after k n body) ↔
      contentLength = announced k n ∧ rest = body := by
  rw [mem_postHeader_iff]
  constructor
  · rintro ⟨lines, hheader, rfl⟩
    obtain ⟨rfl, rfl⟩ := hheader.unique (h.header body)
    exact ⟨h.contentLength, rfl⟩
  · rintro ⟨rfl, rfl⟩
    exact ⟨_, h.header rest, h.contentLength.symm⟩

/-- What `exec_cgi` makes of the request. -/
theorem Announces.ends_execCgi (h : Announces before after k n) (hmethod : method ≠ bytes "GET")
    (body : Bytes) (server : ServerHttp) (trace : List Event) (w' : World) :
    Ends (execCgi env path method query) ⟨postRequest before after k n body, server, trace⟩ w' ↔
      w' = if env.forks then exchanged env path method query (announced k n) ⟨body, server, trace⟩
        else ⟨body, server, trace ++ exitEvents env⟩ := by
  have hheader := h.header body
  have hlen : contentLengthOf method
      ((before ++ contentLengthLine k n :: after).map (· ++ [LF]) ++ [[LF]]) = announced k n := by
    rw [contentLengthOf, if_neg hmethod, h.contentLength]
  have hminus : (announced k n : ℤ) ≠ -1 := by omega
  simp only [ends_iff, returns_execCgi, dies_execCgi]
  constructor
  · rintro (⟨-, lines, rest, hheader', hrest⟩ | ⟨e, lines, rest, hheader', -, hforks, -, rfl⟩)
    · obtain ⟨rfl, rfl⟩ := hheader'.unique hheader
      rw [hlen] at hrest
      rcases hrest with ⟨heq, -⟩ | ⟨-, hforks, rfl⟩
      · exact absurd heq hminus
      · rw [if_pos hforks]
    · obtain ⟨rfl, rfl⟩ := hheader'.unique hheader
      simp [hforks]
  · rintro rfl
    cases hforks : env.forks with
    | true =>
      refine Or.inl ⟨(), _, body, hheader, Or.inr ⟨?_, rfl, ?_⟩⟩
      · rwa [hlen]
      · rw [hlen]
        rfl
    | false =>
      refine Or.inr ⟨.exit, _, body, hheader, ?_, rfl, rfl, rfl⟩
      rwa [hlen]

/-- `exec_cgi` on `sock` takes the content length to be `n` and, in the end, has
written the first `n` bytes of `body` to `cgi_input`, or all if there are fewer. -/
def Delivers (n : ℕ) (body : Bytes) (w : World) : Prop :=
  (∃ rest, ((n : ℤ), rest) ∈ postHeader w.sock) ∧
    ∃ w', Ends (execCgi env path method query) w w' ∧
      w'.written = w.written ++ body.take (min n body.length)

/-- **Delivery of the body.** The whole body that was announced is written to `cgi_input`
if and only if the body is no shorter than announced, unless the fork fails, and the
number is read whole: a space stands between it and the colon, or it is 0. The writes
count whether or not the two pipes are there, and as if none of them raised SIGPIPE. -/
theorem post_delivery_iff (hmethod : strcaseEq method (bytes "POST") = true)
    (h : Announces before after k n) (body : Bytes) (server : ServerHttp) (trace : List Event) :
    Delivers env path method query n body
        ⟨postRequest before after k n body, server, trace⟩ ↔
      (1 ≤ k ∨ n = 0) ∧ if env.forks then n ≤ body.length else n = 0 ∨ body = [] := by
  have hget : method ≠ bytes "GET" := by
    rintro rfl
    revert hmethod
    decide
  have hread : (∃ rest, ((n : ℤ), rest) ∈ postHeader (postRequest before after k n body)) ↔
      announced k n = n := by
    simp only [h.mem_postHeader, exists_and_left, exists_eq, and_true]
    omega
  simp only [Delivers, hread, h.ends_execCgi env path method query hget, exists_eq_left]
  rw [← announced_eq_iff]
  apply and_congr_right
  intro hn
  cases env.forks with
  | true =>
    rw [if_pos rfl, if_pos rfl, written_exchanged, copied, if_pos hmethod, hn, Int.toNat_natCast,
      ← copyBody_eq_take_iff n env.ch body]
    exact List.append_right_inj _
  | false =>
    have hwritten : World.written ⟨body, server, trace ++ exitEvents env⟩ =
        trace.filterMap Event.writtenByte := by
      rw [World.written, List.filterMap_append, writtenByte_exitEvents, List.append_nil]
    rw [if_neg Bool.false_ne_true, if_neg Bool.false_ne_true, hwritten]
    show trace.filterMap Event.writtenByte = trace.filterMap Event.writtenByte ++ _ ↔ _
    rw [List.self_eq_append_right, List.take_eq_nil_iff, Nat.min_eq_zero_iff,
      List.length_eq_zero_iff, or_assoc, or_self]

/-- `Host: a`, `Content-Length: 2` and the body `hi`. -/
theorem post_delivery_iff_example :
    Delivers bareEnv (bytes "htdocs/cgi") (bytes "POST") (bytes "q") 2 (bytes "hi")
      ⟨postRequest [bytes "Host: a"] [] 1 2 (bytes "hi"), ServerHttp.init, []⟩ :=
  (post_delivery_iff bareEnv (bytes "htdocs/cgi") (bytes "POST") (bytes "q") (by decide)
    ⟨by decide, by decide, by decide⟩ (bytes "hi") ServerHttp.init []).mpr (by decide)

/-- `Content-Length:5` without a space is read as no content at all. -/
theorem not_delivers_without_space :
    ¬ Delivers bareEnv (bytes "htdocs/cgi") (bytes "POST") (bytes "q") 5 (bytes "hello")
      ⟨postRequest [] [] 0 5 (bytes "hello"), ServerHttp.init, []⟩ := by
  rintro ⟨⟨rest, hread⟩, -⟩
  have hannounces : Announces [] [] 0 5 := ⟨by decide, by decide, by decide⟩
  obtain ⟨h, -⟩ := (hannounces.mem_postHeader 5 (bytes "hello") rest).mp hread
  revert h
  decide

end Request

end FacePerception.Server
