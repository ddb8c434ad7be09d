import FacePerception.Lib.CString
import FacePerception.Lib.Loop

/-!
# `get_line`

Model of `server_http::get_line` (`server/server_http.h`, lines 198–228) on a
stream of bytes the client sends before it closes the connection: from then on
`recv` returns 0 and leaves `*ch` as it is.

`buf` is the list of the bytes stored so far. `get_line` stores `'\0'` behind
them, which for a full line of `size-1` bytes and the `'\n'` added to it is one
byte past the array; the model reads it back from there.

Results:
* `mem_getLine_iff`: `get_line` returns exactly what the recursive `readLine`
  says, and never returns where `readLine` is `none`.
* `readLine_eq_some_iff`, `readLine_eq_none_iff`: the ways a stream can begin, in the
  last of which the call never returns.
* `FirstLine.line`, `FirstLine.length_lt`: what a call can return, and that it reads on.
-/

namespace FacePerception.Server

open CString
open Computation (mem_map_corec_exit mem_map_corec_turn not_mem_map_corec)

/-! ## `comm.h` -/

def SIZE : ℕ := 1024
def METHOD_SIZE : ℕ := 255
def URL_SIZE : ℕ := 512
def TREATY_SIZE : ℕ := 512
def PATH_SIZE : ℕ := 512
def QUERY_SIZE : ℕ := 512

def SERVER_STRING : Bytes := bytes "Server: jdbhttp/1.1" ++ [CR, LF]

/-! ## The loop -/

/-- `recv(sock,&ch,1,0)`: its result, `ch` and what is left to read. -/
def recv (ch : UInt8) : Bytes → ℤ × UInt8 × Bytes
  | [] => (0, ch, [])
  | c :: sock => (1, c, sock)

/-- The variables of `get_line`; `i` is the length of `buf`. -/
structure LineState where
  buf : Bytes
  ch : UInt8
  sock : Bytes

/-- One turn of the `while` loop (lines 204–218). -/
def getLineTurn (size : ℕ) (s : LineState) : LineState ⊕ LineState :=
  if s.buf.length < size - 1 ∧ s.ch ≠ LF then
    let (num, ch, sock) := recv s.ch s.sock
    if ch = NUL ∨ ch = LF ∨ ch = CR then
      let (_, ch, sock) := recv ch sock
      .inl ⟨s.buf, ch, sock⟩
    else .inr ⟨if num > 0 then s.buf ++ [ch] else s.buf, ch, sock⟩
  else .inl s

/-- Lines 219–225: a `'\n'` behind the line unless the last byte read was `'\0'`. -/
def endLine (buf : Bytes) (ch : UInt8) : Bytes := if ch = NUL then buf else buf ++ [LF]

/-- The line and what is left to read when the loop has ended. -/
def LineState.finish (s : LineState) : Bytes × Bytes := (endLine s.buf s.ch, s.sock)

/-- `get_line` (lines 198–228): the line left in `buf` and what is left to read.
The result of the C function is the length of the line. -/
def getLine (size : ℕ) (sock : Bytes) : Computation (Bytes × Bytes) :=
  LineState.finish <$> Computation.corec (getLineTurn size) ⟨[], NUL, sock⟩

/-! ## What a call returns -/

/-- A byte `get_line` stores. -/
def Ordinary (c : UInt8) : Prop := c ≠ NUL ∧ c ≠ LF ∧ c ≠ CR

instance decidableOrdinary (c : UInt8) : Decidable (Ordinary c) :=
  inferInstanceAs (Decidable (_ ∧ _))

/-- What the loop makes of the rest of the stream with room for `room` more bytes;
`none` if it never ends. -/
def lineFrom : ℕ → UInt8 → Bytes → Bytes → Option (Bytes × Bytes)
  | 0, ch, buf, sock => some (endLine buf ch, sock)
  | _ + 1, ch, buf, [] => if ch = NUL then some (buf, []) else none
  | room + 1, _, buf, c :: sock =>
    if Ordinary c then lineFrom room c (buf ++ [c]) sock
    else match sock with
      | [] => some (endLine buf c, [])
      | d :: sock => some (endLine buf d, sock)

/-- What `get_line` makes of a stream with a `buf` of `n + 1` bytes. -/
def readLine (n : ℕ) (sock : Bytes) : Option (Bytes × Bytes) := lineFrom n NUL [] sock

theorem not_ordinary_iff {c : UInt8} : ¬ Ordinary c ↔ c = NUL ∨ c = LF ∨ c = CR := by
  unfold Ordinary
  tauto

theorem ordinary_of_all {w : Bytes} (h : w.all (fun c => decide (Ordinary c)) = true) :
    ∀ c ∈ w, Ordinary c := by
  intro c hc
  exact of_decide_eq_true (List.all_eq_true.mp h c hc)

theorem Ordinary.ne_nul {c : UInt8} (h : Ordinary c) : c ≠ NUL := h.1

theorem getLineTurn_full {size : ℕ} {s : LineState} (h : size - 1 ≤ s.buf.length) :
    getLineTurn size s = .inl s := by
  rw [getLineTurn, if_neg (by omega)]

/-- A stream that has ended leaves an ordinary byte in `ch`, and nothing moves. -/
theorem getLineTurn_spin {size : ℕ} {buf : Bytes} {ch : UInt8} (hroom : buf.length < size - 1)
    (hch : Ordinary ch) : getLineTurn size ⟨buf, ch, []⟩ = .inr ⟨buf, ch, []⟩ := by
  obtain ⟨h1, h2, h3⟩ := hch
  simp [getLineTurn, recv, hroom, h1, h2, h3]

theorem getLineTurn_start {size : ℕ} {buf : Bytes} (hroom : buf.length < size - 1) :
    getLineTurn size ⟨buf, NUL, []⟩ = .inl ⟨buf, NUL, []⟩ := by
  have hNUL : NUL ≠ LF := by decide
  simp [getLineTurn, recv, hroom, hNUL]

theorem getLineTurn_ordinary {size : ℕ} {buf sock : Bytes} {ch c : UInt8}
    (hroom : buf.length < size - 1) (hch : ch ≠ LF) (hc : Ordinary c) :
    getLineTurn size ⟨buf, ch, c :: sock⟩ = .inr ⟨buf ++ [c], c, sock⟩ := by
  obtain ⟨h1, h2, h3⟩ := hc
  simp [getLineTurn, recv, hroom, hch, h1, h2, h3]

theorem getLineTurn_end {size : ℕ} {buf sock : Bytes} {ch c : UInt8}
    (hroom : buf.length < size - 1) (hch : ch ≠ LF) (hc : ¬ Ordinary c) :
    getLineTurn size ⟨buf, ch, c :: sock⟩ =
      .inl ⟨buf, (recv c sock).2.1, (recv c sock).2.2⟩ := by
  have hc := not_ordinary_iff.mp hc
  simp [getLineTurn, recv, hroom, hch, hc]

theorem mem_finish_iff (size : ℕ) (sock : Bytes) :
    ∀ (buf : Bytes) (ch : UInt8), ch = NUL ∨ Ordinary ch → ∀ r : Bytes × Bytes,
      r ∈ LineState.finish <$> Computation.corec (getLineTurn size) ⟨buf, ch, sock⟩ ↔
        lineFrom (size - 1 - buf.length) ch buf sock = some r := by
  induction sock with
  | nil =>
    intro buf ch hch r
    rcases Nat.lt_or_ge buf.length (size - 1) with hroom | hroom
    · rw [show size - 1 - buf.length = size - 1 - buf.length - 1 + 1 by omega, lineFrom]
      rcases hch with rfl | hch
      · rw [mem_map_corec_exit (getLineTurn_start hroom), if_pos rfl, Option.some.injEq]
        rfl
      · rw [if_neg hch.ne_nul]
        simp only [reduceCtorEq, iff_false]
        exact not_mem_map_corec (getLineTurn_spin hroom hch) _ r
    · rw [mem_map_corec_exit (getLineTurn_full hroom), Nat.sub_eq_zero_of_le hroom, lineFrom,
        Option.some.injEq]
      rfl
  | cons c sock ih =>
    intro buf ch hch r
    have hLF : ch ≠ LF := by
      rcases hch with rfl | hch
      · decide
      · exact hch.2.1
    rcases Nat.lt_or_ge buf.length (size - 1) with hroom | hroom
    · have hlen : (buf ++ [c]).length = buf.length + 1 := by simp
      rw [show size - 1 - buf.length = size - 1 - (buf ++ [c]).length + 1 by omega]
      by_cases hc : Ordinary c
      · rw [mem_map_corec_turn (getLineTurn_ordinary hroom hLF hc), ih _ _ (Or.inr hc)]
        cases sock <;> rw [lineFrom, if_pos hc]
      · rw [mem_map_corec_exit (getLineTurn_end hroom hLF hc)]
        cases sock <;> rw [lineFrom, if_neg hc, Option.some.injEq] <;> rfl
    · rw [mem_map_corec_exit (getLineTurn_full hroom), Nat.sub_eq_zero_of_le hroom, lineFrom,
        Option.some.injEq]
      rfl

/-- **`get_line` returns what `readLine` says.** -/
theorem mem_getLine_iff (size : ℕ) (sock : Bytes) (r : Bytes × Bytes) :
    r ∈ getLine size sock ↔ readLine (size - 1) sock = some r :=
  mem_finish_iff size sock [] NUL (Or.inl rfl) r

/-! ## The cases of a call -/

/-- The stream has begun a line of a `buf` of `n + 1` bytes and ends inside it. -/
structure Unfinished (n : ℕ) (sock : Bytes) : Prop where
  ne_nil : sock ≠ []
  short : sock.length < n
  ordinary : ∀ c ∈ sock, Ordinary c

theorem lineFrom_append (w : Bytes) :
    (∀ c ∈ w, Ordinary c) → ∀ (room : ℕ) (ch : UInt8) (buf sock : Bytes), w.length ≤ room →
      lineFrom room ch buf (w ++ sock) =
        lineFrom (room - w.length) (w.getLastD ch) (buf ++ w) sock := by
  induction w with
  | nil => intro _ room ch buf sock _; simp
  | cons c w ih =>
    intro hw room ch buf sock hroom
    obtain ⟨hc, hw⟩ := List.forall_mem_cons.mp hw
    rw [List.length_cons] at hroom
    obtain ⟨k, rfl⟩ : ∃ k, room = k + 1 := ⟨room - 1, by omega⟩
    have hstep : lineFrom (k + 1) ch buf (c :: (w ++ sock)) =
        lineFrom k c (buf ++ [c]) (w ++ sock) := by
      rw [lineFrom.eq_def]
      exact if_pos hc
    rw [List.cons_append, hstep, ih hw k c (buf ++ [c]) sock (by omega), List.length_cons,
      Nat.add_sub_add_right, List.append_assoc, List.singleton_append, List.getLastD_cons]

theorem ordinary_getLastD {w : Bytes} (hw : ∀ c ∈ w, Ordinary c) (hne : w ≠ []) (ch : UInt8) :
    Ordinary (w.getLastD ch) := by
  rw [List.getLastD_eq_getLast?, List.getLast?_eq_some_getLast hne, Option.getD_some]
  exact hw _ (List.getLast_mem hne)

@[simp] theorem readLine_nil (n : ℕ) : readLine n [] = some ([], []) := by
  cases n <;> rfl

/-- A line that fills `buf`. -/
theorem readLine_full {w : Bytes} (hw : ∀ c ∈ w, Ordinary c) (hne : w ≠ []) (sock : Bytes) :
    readLine w.length (w ++ sock) = some (w ++ [LF], sock) := by
  rw [readLine, lineFrom_append w hw _ _ _ _ le_rfl, Nat.sub_self, lineFrom, endLine,
    if_neg (ordinary_getLastD hw hne NUL).ne_nul, List.nil_append]

/-- A line that ends before `buf` is full: the byte behind its end is read too. -/
theorem readLine_end {n : ℕ} {w : Bytes} (hw : ∀ c ∈ w, Ordinary c) (hlen : w.length < n)
    {t : UInt8} (ht : ¬ Ordinary t) (sock : Bytes) :
    readLine n (w ++ t :: sock) = some (endLine w (sock.headD t), sock.tail) := by
  rw [readLine, lineFrom_append w hw _ _ _ _ hlen.le, List.nil_append,
    show n - w.length = n - w.length - 1 + 1 by omega]
  cases sock <;> rw [lineFrom, if_neg ht] <;> rfl

theorem readLine_unfinished {n : ℕ} {sock : Bytes} (h : Unfinished n sock) :
    readLine n sock = none := by
  obtain ⟨hne, hlen, hw⟩ := h
  have happ := lineFrom_append sock hw n NUL [] [] hlen.le
  rw [List.append_nil] at happ
  rw [readLine, happ, show n - sock.length = n - sock.length - 1 + 1 by omega, lineFrom,
    if_neg (ordinary_getLastD hw hne NUL).ne_nul]

/-- Every stream is in one of the four cases. -/
theorem stream_cases (n : ℕ) (sock : Bytes) :
    sock = [] ∨ Unfinished n sock ∨
      (∃ w rest, sock = w ++ rest ∧ w.length = n ∧ ∀ c ∈ w, Ordinary c) ∨
      ∃ w t rest, sock = w ++ t :: rest ∧ w.length < n ∧ (∀ c ∈ w, Ordinary c) ∧
        ¬ Ordinary t := by
  obtain ⟨w, hw⟩ : ∃ w, w = sock.takeWhile (Ordinary ·) := ⟨_, rfl⟩
  obtain ⟨rest, hrest⟩ : ∃ rest, rest = sock.dropWhile (Ordinary ·) := ⟨_, rfl⟩
  have happ : sock = w ++ rest := by rw [hw, hrest, List.takeWhile_append_dropWhile]
  have hord : ∀ c ∈ w, Ordinary c := by
    intro c hc
    rw [hw] at hc
    simpa using List.mem_takeWhile_imp hc
  rcases Nat.lt_or_ge w.length n with hlen | hlen
  · cases hcases : rest with
    | nil =>
      rw [hcases, List.append_nil] at happ
      by_cases hnil : sock = []
      · exact Or.inl hnil
      · exact Or.inr (Or.inl ⟨hnil, happ ▸ hlen, happ ▸ hord⟩)
    | cons t rest' =>
      have ht : ¬ Ordinary t := by
        have hhead := List.head?_dropWhile_not (fun c => decide (Ordinary c)) sock
        rw [← hrest, hcases] at hhead
        simpa using hhead
      exact Or.inr (Or.inr (Or.inr ⟨w, t, rest', hcases ▸ happ, hlen, hord, ht⟩))
  · refine Or.inr (Or.inr (Or.inl ⟨w.take n, w.drop n ++ rest, ?_, ?_, ?_⟩))
    · rw [← List.append_assoc, List.take_append_drop, ← happ]
    · rw [List.length_take, Nat.min_eq_left hlen]
    · intro c hc
      exact hord c (List.mem_of_mem_take hc)

/-- **`get_line` fails to return exactly on a stream that ends inside a line.** -/
theorem readLine_eq_none_iff {n : ℕ} (hn : 0 < n) (sock : Bytes) :
    readLine n sock = none ↔ Unfinished n sock := by
  refine ⟨fun h => ?_, readLine_unfinished⟩
  rcases stream_cases n sock with rfl | hun | ⟨w, rest, rfl, rfl, hw⟩ |
    ⟨w, t, rest, rfl, hlen, hw, ht⟩
  · simp at h
  · exact hun
  · rw [readLine_full hw (List.length_pos_iff.mp hn)] at h
    cases h
  · rw [readLine_end hw hlen ht] at h
    cases h

/-- A stream begins with the line that a `buf` of `n + 1` bytes gets to hold, and
`rest` follows. -/
inductive FirstLine (n : ℕ) : Bytes → Bytes → Bytes → Prop
  /-- The client has sent all. -/
  | empty : FirstLine n [] [] []
  /-- The line fills `buf`. -/
  | full {w : Bytes} (hlen : w.length = n) (hw : ∀ c ∈ w, Ordinary c) (rest : Bytes) :
    FirstLine n (w ++ rest) (w ++ [LF]) rest
  /-- The line ends with `t`, and the byte behind `t` is part of its end. -/
  | ended {w : Bytes} {t : UInt8} (hlen : w.length < n) (hw : ∀ c ∈ w, Ordinary c)
    (ht : ¬ Ordinary t) (rest : Bytes) :
    FirstLine n (w ++ t :: rest) (endLine w (rest.headD t)) rest.tail

/-- **`get_line` returns the first line of the stream.** -/
theorem readLine_eq_some_iff {n : ℕ} (hn : 0 < n) (sock line rest : Bytes) :
    readLine n sock = some (line, rest) ↔ FirstLine n sock line rest := by
  constructor
  · intro h
    rcases stream_cases n sock with rfl | hun | ⟨w, rest', rfl, rfl, hw⟩ |
      ⟨w, t, rest', rfl, hlen, hw, ht⟩
    · rw [readLine_nil, Option.some.injEq, Prod.mk.injEq] at h
      obtain ⟨rfl, rfl⟩ := h
      exact .empty
    · rw [readLine_unfinished hun] at h
      cases h
    · rw [readLine_full hw (List.length_pos_iff.mp hn), Option.some.injEq, Prod.mk.injEq] at h
      obtain ⟨rfl, rfl⟩ := h
      exact .full rfl hw _
    · rw [readLine_end hw hlen ht, Option.some.injEq, Prod.mk.injEq] at h
      obtain ⟨rfl, rfl⟩ := h
      exact .ended hlen hw ht _
  · intro h
    cases h with
    | empty => exact readLine_nil n
    | full hlen hw rest =>
      subst hlen
      exact readLine_full hw (List.length_pos_iff.mp hn) rest
    | ended hlen hw ht rest => exact readLine_end hw hlen ht rest

theorem FirstLine.unique {n : ℕ} (hn : 0 < n) {sock line line' rest rest' : Bytes}
    (h : FirstLine n sock line rest) (h' : FirstLine n sock line' rest') :
    line = line' ∧ rest = rest' := by
  have hread := (readLine_eq_some_iff hn sock line rest).mpr h
  have hread' := (readLine_eq_some_iff hn sock line' rest').mpr h'
  rw [hread, Option.some.injEq, Prod.mk.injEq] at hread'
  exact hread'

/-- What `get_line` can leave in a `buf` of `n + 1` bytes. -/
def Line (n : ℕ) (line : Bytes) : Prop :=
  ∃ w, (∀ c ∈ w, Ordinary c) ∧ (w.length < n ∧ line = w ∨ w.length ≤ n ∧ line = w ++ [LF])

theorem line_endLine {n : ℕ} {w : Bytes} (hw : ∀ c ∈ w, Ordinary c) (hlen : w.length < n)
    (c : UInt8) : Line n (endLine w c) := by
  refine ⟨w, hw, ?_⟩
  rw [endLine]
  split_ifs
  · exact Or.inl ⟨hlen, rfl⟩
  · exact Or.inr ⟨hlen.le, rfl⟩

theorem Line.nul_notMem {n : ℕ} {line : Bytes} (h : Line n line) : NUL ∉ line := by
  obtain ⟨w, hw, ⟨-, rfl⟩ | ⟨-, rfl⟩⟩ := h
  · exact fun hmem => (hw _ hmem).ne_nul rfl
  · intro hmem
    rcases List.mem_append.mp hmem with hmem | hmem
    · exact (hw _ hmem).ne_nul rfl
    · exact absurd (List.mem_singleton.mp hmem) (by decide)

theorem Line.length_le {n : ℕ} {line : Bytes} (h : Line n line) : line.length ≤ n + 1 := by
  obtain ⟨w, -, ⟨hlen, rfl⟩ | ⟨hlen, rfl⟩⟩ := h
  · omega
  · rw [List.length_append, List.length_singleton]
    omega

theorem FirstLine.line {n : ℕ} (hn : 0 < n) {sock line rest : Bytes}
    (h : FirstLine n sock line rest) : Line n line := by
  cases h with
  | empty => exact ⟨[], by simp, Or.inl ⟨hn, rfl⟩⟩
  | @full w hlen hw rest => exact ⟨w, hw, Or.inr ⟨hlen.le, rfl⟩⟩
  | ended hlen hw ht rest => exact line_endLine hw hlen _

/-- A call reads at least one byte if there is one. -/
theorem FirstLine.length_lt {n : ℕ} (hn : 0 < n) {sock line rest : Bytes}
    (h : FirstLine n sock line rest) (hne : sock ≠ []) : rest.length < sock.length := by
  cases h with
  | empty => exact absurd rfl hne
  | full hlen hw rest =>
    rw [List.length_append]
    omega
  | ended hlen hw ht rest =>
    rw [List.length_append, List.length_cons, List.length_tail]
    omega

end FacePerception.Server
