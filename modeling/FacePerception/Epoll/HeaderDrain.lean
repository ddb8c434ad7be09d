import FacePerception.Epoll.StaticFile

/-!
# The header loop of the epoll server at the end of its input

`exec_get_file` (`server/server.h`, lines 149–163) reads lines until one is empty or
`get_line` returns 0. At the end of the stream `get_line` of `server.h` stores a `'\0'`
and counts it, so it never returns 0 there.

* `readLine_crlf`: a line that ends with CRLF is read as it is.
* `not_terminates_at_end`: at the end of the stream the loop goes on for ever.
* `drains_iff`: on which streams of lines it ends.
-/

namespace FacePerception.Epoll

open CString
open FacePerception.Server (Ordinary ordinary_of_all)
open Computation (loop mem_map_iff terminates_loop_iff not_terminates_loop)

/-- A line of a client, without its CRLF, that `get_line` can read at once. -/
structure CrlfLine (l : Bytes) : Prop where
  ordinary : ∀ c ∈ l, Ordinary c
  short : l.length < SIZE - 1

/-- What comes from a client that sends these lines and then closes the connection. -/
def crlfStream (ls : List Bytes) : Schedule := (ls.flatMap (· ++ [CR, LF])).map some

theorem crlfStream_cons (l : Bytes) (ls : List Bytes) :
    crlfStream (l :: ls) = l.map some ++ some CR :: some LF :: crlfStream ls := by
  simp [crlfStream]

/-! ## One line -/

theorem lineFrom_crlf {l : Bytes} (hl : ∀ c ∈ l, Ordinary c) (rest : Schedule) :
    ∀ (room : ℕ) (ch : UInt8) (buf : Bytes), l.length < room →
      lineFrom room ch buf (l.map some ++ some CR :: some LF :: rest) =
        some (buf ++ l ++ [LF], rest) := by
  have hCR : ¬ Ordinary CR := by decide
  induction l with
  | nil =>
    intro room ch buf hroom
    obtain ⟨k, rfl⟩ := Nat.exists_eq_add_of_lt hroom
    rw [List.map_nil, List.nil_append, lineFrom, if_neg hCR, finish_lastRecv_some,
      List.append_nil]
    rfl
  | cons c l ih =>
    intro room ch buf hroom
    obtain ⟨hc, hl⟩ := List.forall_mem_cons.mp hl
    obtain ⟨k, rfl⟩ := Nat.exists_eq_add_of_lt hroom
    rw [List.map_cons, List.cons_append, lineFrom, if_pos hc, ih hl _ _ _ (by simp; omega)]
    simp

/-- **A line that ends with CRLF is read as it is.** -/
theorem readLine_crlf {l : Bytes} (hl : CrlfLine l) (rest : Schedule) :
    readLine (SIZE - 1) (l.map some ++ some CR :: some LF :: rest) = some (l ++ [LF], rest) := by
  rw [readLine, lineFrom_crlf hl.ordinary rest _ _ _ hl.short, List.nil_append]

/-- At the end of the stream a line of one byte is read, its `'\0'`. -/
theorem readLine_end : readLine (SIZE - 1) [] = some ([NUL], []) := by decide

/-! ## The loop -/

theorem terminates_of_empty_line {s : GetFileState} (h : cstr s.buf = [LF]) :
    (loop getFileTurn s).Terminates := by
  have hexit : ¬ (s.num > 0 ∧ cstr s.buf ≠ [LF]) := fun hgo => hgo.2 h
  rw [terminates_loop_iff, getFileTurn, if_neg hexit]
  exact Or.inl ⟨s.sock, Computation.ret_mem _⟩

/-- One turn behind a line that is not empty. -/
theorem terminates_getFileTurn_iff {num : ℤ} {buf line : Bytes} {sock rest : Schedule}
    (hnum : num > 0) (hbuf : cstr buf ≠ [LF])
    (hread : readLine (SIZE - 1) sock = some (line, rest)) :
    (loop getFileTurn ⟨num, buf, sock⟩).Terminates ↔
      (loop getFileTurn ⟨line.length, line, rest⟩).Terminates := by
  have hline : ∀ r, r ∈ getLine SIZE sock ↔ r = (line, rest) := by
    intro r
    rw [mem_getLine_iff, hread, Option.some.injEq, eq_comm]
  rw [terminates_loop_iff, getFileTurn, if_pos ⟨hnum, hbuf⟩]
  simp only [mem_map_iff, hline, exists_eq_left, reduceCtorEq, exists_false, false_or,
    Sum.inr.injEq, exists_eq_left']

/-- **At the end of the stream the loop goes on for ever.** -/
theorem not_terminates_at_end {s : GetFileState} (hnum : s.num > 0) (hbuf : cstr s.buf ≠ [LF])
    (hsock : s.sock = []) : ¬ (loop getFileTurn s).Terminates := by
  apply not_terminates_loop (fun s => s.num > 0 ∧ cstr s.buf ≠ [LF] ∧ s.sock = [])
  · intro s ⟨hnum, hbuf, hsock⟩ x hx
    rw [getFileTurn, if_pos ⟨hnum, hbuf⟩, hsock, mem_map_iff] at hx
    obtain ⟨r, hr, rfl⟩ := hx
    rw [mem_getLine_iff, readLine_end, Option.some.injEq] at hr
    subst hr
    refine ⟨⟨([NUL] : Bytes).length, [NUL], []⟩, rfl, ?_, ?_, rfl⟩
    · show (1 : ℤ) > 0
      norm_num
    · show cstr [NUL] ≠ [LF]
      decide
  · exact ⟨hnum, hbuf, hsock⟩

theorem cstr_line {l : Bytes} (hl : ∀ c ∈ l, Ordinary c) : cstr (l ++ [LF]) = l ++ [LF] := by
  apply cstr_eq_self
  rw [List.mem_append, not_or]
  exact ⟨fun hmem => (hl NUL hmem).ne_nul rfl, by decide⟩

/-- From any turn on the loop ends iff one of the lines that are left is empty. -/
theorem terminates_stream_iff {ls : List Bytes} (hls : ∀ l ∈ ls, CrlfLine l) :
    ∀ {num : ℤ} {buf : Bytes}, num > 0 → cstr buf ≠ [LF] →
      ((loop getFileTurn ⟨num, buf, crlfStream ls⟩).Terminates ↔ [] ∈ ls) := by
  induction ls with
  | nil =>
    intro num buf hnum hbuf
    exact iff_of_false (not_terminates_at_end hnum hbuf rfl) List.not_mem_nil
  | cons l ls ih =>
    intro num buf hnum hbuf
    obtain ⟨hl, hls⟩ := List.forall_mem_cons.mp hls
    have hread := readLine_crlf hl (crlfStream ls)
    rw [← crlfStream_cons] at hread
    rw [terminates_getFileTurn_iff hnum hbuf hread, List.mem_cons]
    by_cases hnil : l = []
    · subst hnil
      have hempty : cstr ([] ++ [LF]) = [LF] := by decide
      exact iff_of_true (terminates_of_empty_line hempty) (Or.inl rfl)
    · have hbuf : cstr (l ++ [LF]) ≠ [LF] := by
        rw [cstr_line hl.ordinary]
        simpa using hnil
      rw [ih hls (by simp only [List.length_append, List.length_singleton]; omega) hbuf]
      exact (or_iff_right (Ne.symm hnil)).symm

theorem terminates_getFileHeader (sock : Schedule) :
    (getFileHeader sock).Terminates ↔ (loop getFileTurn ⟨1, [], sock⟩).Terminates := by
  simp only [Computation.terminates_iff, getFileHeader, mem_map_iff, Prod.exists]
  constructor
  · rintro ⟨_, _, rest, hrest, _⟩
    exact ⟨rest, hrest⟩
  · rintro ⟨rest, hrest⟩
    exact ⟨(), rest, rest, hrest, rfl⟩

/-- **The header loop ends iff an empty line is among those the client sends.** -/
theorem drains_iff {ls : List Bytes} (hls : ∀ l ∈ ls, CrlfLine l) :
    (getFileHeader (crlfStream ls)).Terminates ↔ [] ∈ ls := by
  have hbuf : cstr [] ≠ [LF] := by decide
  rw [terminates_getFileHeader, terminates_stream_iff hls one_pos hbuf]

theorem crlfLine_host : ∀ l ∈ [bytes "Host: a"], CrlfLine l := by
  intro l hl
  rw [List.mem_singleton.mp hl]
  exact ⟨ordinary_of_all (by decide), by decide⟩

/-- A header with its empty line. -/
theorem drains_iff_example :
    (getFileHeader (crlfStream [bytes "Host: a", []])).Terminates ↔
      [] ∈ [bytes "Host: a", []] := by
  refine drains_iff fun l hl => ?_
  rcases List.mem_cons.mp hl with rfl | hl
  · exact ⟨ordinary_of_all (by decide), by decide⟩
  · rw [List.mem_singleton.mp hl]
    exact ⟨by simp, by decide⟩

/-- A client that closes the connection behind its first header line. -/
theorem not_drains_one_line :
    (∀ l ∈ [bytes "Host: a"], CrlfLine l) ∧
      ¬ (getFileHeader (crlfStream [bytes "Host: a"])).Terminates := by
  have hbuf : cstr [] ≠ [LF] := by decide
  refine ⟨crlfLine_host, ?_⟩
  rw [terminates_getFileHeader, terminates_stream_iff crlfLine_host one_pos hbuf]
  decide

end FacePerception.Epoll
