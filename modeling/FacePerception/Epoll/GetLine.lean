import Mathlib.Data.List.ReduceOption
import FacePerception.Server.GetLine

/-!
# `get_line` on a non-blocking socket

Model of `get_line` (`server/server.h`, lines 46–71), which the workers of the epoll
server call on sockets that `addfd` has made non-blocking: `recv` gives the next byte, or
−1 where none has come yet. Once the client has sent all, `recv` leaves `*ch` as it is,
with 0 if the connection is closed and with −1 if it is not.

`buf` is the list of the bytes stored so far, and the line has the length that
`get_line` returns.

Results:
* `mem_getLines_iff`: what successive calls return.
* `readLine_noticed`, `noticedFrom_eq_mark`: a call depends on no gap that `noticedFrom`
  leaves out, and shows all the others.
* `timing_iff`: when two schedules of the same bytes are read alike.
* `gap_before_line`: a gap before a request line.
-/

namespace FacePerception.Epoll

open CString
open FacePerception.Server (Ordinary not_ordinary_iff)
open Computation (mem_map_corec_exit mem_map_corec_turn not_mem_map_corec)

/-! ## The loop -/

def SIZE : ℕ := 128

/-- What `recv` gives for the bytes of a client, in order: a byte, or `none` for a
result of −1 with `EAGAIN`. `reduceOption` are the bytes. -/
abbrev Schedule := List (Option UInt8)

/-- `recv(sock,&ch,1,0)`: its result, `ch` and what is left to come. -/
def recv (ch : UInt8) : Schedule → ℤ × UInt8 × Schedule
  | [] => (0, ch, [])
  | none :: sock => (-1, ch, sock)
  | some c :: sock => (1, c, sock)

/-- The variables of `get_line`; `i` is the length of `buf`. -/
structure LineState where
  buf : Bytes
  ch : UInt8
  sock : Schedule

/-- The `recv` that stands before the `break` (line 57). -/
def lastRecv (buf : Bytes) (ch : UInt8) (sock : Schedule) : LineState :=
  let (_, ch, sock) := recv ch sock
  ⟨buf, ch, sock⟩

/-- One turn of the `while` loop (lines 52–62). -/
def getLineTurn (len : ℕ) (s : LineState) : LineState ⊕ LineState :=
  if s.buf.length < len - 1 ∧ s.ch ≠ LF then
    let (num, ch, sock) := recv s.ch s.sock
    if ch = NUL ∨ ch = LF ∨ ch = CR then .inl (lastRecv s.buf ch sock)
    else .inr ⟨if num > 0 then s.buf ++ [ch] else s.buf, ch, sock⟩
  else .inl s

/-- Lines 63–69: what the line ends with. -/
def endLine (buf : Bytes) (ch : UInt8) : Bytes := if ch = NUL then buf ++ [NUL] else buf ++ [LF]

/-- The line and what is left to come when the loop has ended. -/
def LineState.finish (s : LineState) : Bytes × Schedule := (endLine s.buf s.ch, s.sock)

/-- `get_line` (lines 46–71). -/
def getLine (len : ℕ) (sock : Schedule) : Computation (Bytes × Schedule) :=
  LineState.finish <$> Computation.corec (getLineTurn len) ⟨[], NUL, sock⟩

/-- `k` successive calls: their lines, and the bytes that are left. -/
def getLines (len : ℕ) : ℕ → Schedule → Computation (List Bytes × Bytes)
  | 0, sock => .pure ([], sock.reduceOption)
  | k + 1, sock => do
    let (line, sock) ← getLine len sock
    let (lines, rest) ← getLines len k sock
    .pure (line :: lines, rest)

/-- Any number of successive calls return the same lines and leave the same bytes. -/
def ReadAlike (len : ℕ) (sock₁ sock₂ : Schedule) : Prop :=
  ∀ k r, r ∈ getLines len k sock₁ ↔ r ∈ getLines len k sock₂

/-! ## The gaps that are noticed -/

/-- Where a call of `get_line` is: before its first byte, in a line with room for
`room + 1` more bytes, or behind the byte that has ended the line. -/
inductive Phase
  | start
  | inside (room : ℕ)
  | terminated

/-- Behind a byte of the line, with room for `room` more. -/
def behind : ℕ → Phase
  | 0 => .start
  | room + 1 => .inside room

/-- The schedule without the gaps that make no difference, for a `buf` of `n + 2` bytes.
A gap counts before a call's first byte and behind the byte that ends a line, as long as
bytes are left; the one before the end of an empty line does what one behind it does. -/
def noticedFrom (n : ℕ) : Phase → Schedule → Schedule
  | _, [] => []
  | .start, some c :: sock =>
    some c :: noticedFrom n (if Ordinary c then behind n else .terminated) sock
  | .start, [none] => []
  | .start, none :: none :: sock =>
    if sock.reduceOption = [] then [] else none :: none :: noticedFrom n .start sock
  | .start, none :: some c :: sock =>
    if Ordinary c then none :: some c :: noticedFrom n .start sock
    else if sock.reduceOption = [] then [some c] else some c :: none :: noticedFrom n .start sock
  | .inside room, none :: sock => noticedFrom n (.inside room) sock
  | .inside room, some c :: sock =>
    some c :: noticedFrom n (if Ordinary c then behind room else .terminated) sock
  | .terminated, none :: sock =>
    if sock.reduceOption = [] then [] else none :: noticedFrom n .start sock
  | .terminated, some c :: sock => some c :: noticedFrom n .start sock

/-- The same for calls with `len`; with `len = 1` they read nothing. -/
def noticed (len : ℕ) (sock : Schedule) : Schedule :=
  match len - 1 with
  | 0 => sock.reduceOption.map some
  | n + 1 => noticedFrom n .start sock

/-! ## What a call returns -/

/-- What the loop makes of the rest of the schedule with room for `room` more bytes;
`none` if it never ends. -/
def lineFrom : ℕ → UInt8 → Bytes → Schedule → Option (Bytes × Schedule)
  | 0, ch, buf, sock => some (endLine buf ch, sock)
  | _ + 1, ch, buf, [] => if ch = NUL then some (endLine buf ch, []) else none
  | room + 1, ch, buf, none :: sock =>
    if ch = NUL then some (lastRecv buf ch sock).finish else lineFrom (room + 1) ch buf sock
  | room + 1, _, buf, some c :: sock =>
    if Ordinary c then lineFrom room c (buf ++ [c]) sock
    else some (lastRecv buf c sock).finish

/-- What `get_line` makes of a schedule with a `buf` of `n + 1` bytes. -/
def readLine (n : ℕ) (sock : Schedule) : Option (Bytes × Schedule) := lineFrom n NUL [] sock

/-- What `k` successive calls make of it. -/
def readLines (n : ℕ) : ℕ → Schedule → Option (List Bytes × Bytes)
  | 0, sock => some ([], sock.reduceOption)
  | k + 1, sock => do
    let (line, sock) ← readLine n sock
    let (lines, rest) ← readLines n k sock
    some (line :: lines, rest)

@[simp] theorem finish_lastRecv_nil (buf : Bytes) (ch : UInt8) :
    (lastRecv buf ch []).finish = (endLine buf ch, []) := rfl

@[simp] theorem finish_lastRecv_none (buf : Bytes) (ch : UInt8) (sock : Schedule) :
    (lastRecv buf ch (none :: sock)).finish = (endLine buf ch, sock) := rfl

@[simp] theorem finish_lastRecv_some (buf : Bytes) (ch c : UInt8) (sock : Schedule) :
    (lastRecv buf ch (some c :: sock)).finish = (endLine buf c, sock) := rfl

theorem not_ordinary_NUL : ¬ Ordinary NUL := by decide

theorem getLineTurn_full {len : ℕ} {s : LineState} (h : len - 1 ≤ s.buf.length) :
    getLineTurn len s = .inl s := by
  rw [getLineTurn, if_neg (by omega)]

theorem getLineTurn_stop {len : ℕ} {buf : Bytes} {ch : UInt8} (sock : Schedule)
    (hroom : buf.length < len - 1) (hLF : ch ≠ LF) (h : ¬ Ordinary (recv ch sock).2.1) :
    getLineTurn len ⟨buf, ch, sock⟩ =
      .inl (lastRecv buf (recv ch sock).2.1 (recv ch sock).2.2) := by
  rw [getLineTurn, if_pos ⟨hroom, hLF⟩]
  exact if_pos (not_ordinary_iff.mp h)

theorem getLineTurn_go {len : ℕ} {buf : Bytes} {ch : UInt8} (sock : Schedule)
    (hroom : buf.length < len - 1) (hLF : ch ≠ LF) (h : Ordinary (recv ch sock).2.1) :
    getLineTurn len ⟨buf, ch, sock⟩ =
      .inr ⟨if (recv ch sock).1 > 0 then buf ++ [(recv ch sock).2.1] else buf,
        (recv ch sock).2.1, (recv ch sock).2.2⟩ := by
  rw [getLineTurn, if_pos ⟨hroom, hLF⟩]
  exact if_neg (not_ordinary_iff.not.mp (not_not.mpr h))

theorem mem_finish_iff (len : ℕ) (sock : Schedule) :
    ∀ (buf : Bytes) (ch : UInt8), ch = NUL ∨ Ordinary ch → ∀ r : Bytes × Schedule,
      r ∈ LineState.finish <$> Computation.corec (getLineTurn len) ⟨buf, ch, sock⟩ ↔
        lineFrom (len - 1 - buf.length) ch buf sock = some r := by
  induction sock with
  | nil =>
    intro buf ch hch r
    rcases Nat.lt_or_ge buf.length (len - 1) with hroom | hroom
    · rw [show len - 1 - buf.length = len - 1 - buf.length - 1 + 1 by omega, lineFrom]
      rcases hch with rfl | hch
      · have hNUL : NUL ≠ LF := by decide
        rw [mem_map_corec_exit (getLineTurn_stop [] hroom hNUL not_ordinary_NUL),
          if_pos rfl, Option.some.injEq]
        rfl
      · rw [if_neg hch.ne_nul]
        simp only [reduceCtorEq, iff_false]
        exact not_mem_map_corec (getLineTurn_go [] hroom hch.2.1 hch) _ r
    · rw [mem_map_corec_exit (getLineTurn_full hroom), Nat.sub_eq_zero_of_le hroom, lineFrom,
        Option.some.injEq]
      rfl
  | cons x sock ih =>
    intro buf ch hch r
    have hLF : ch ≠ LF := by
      rcases hch with rfl | hch
      · decide
      · exact hch.2.1
    rcases Nat.lt_or_ge buf.length (len - 1) with hroom | hroom
    · cases x with
      | none =>
        rw [show len - 1 - buf.length = len - 1 - buf.length - 1 + 1 by omega, lineFrom]
        rcases hch with rfl | hch
        · rw [mem_map_corec_exit (getLineTurn_stop (none :: sock) hroom hLF
            not_ordinary_NUL), if_pos rfl, Option.some.injEq]
          rfl
        · rw [mem_map_corec_turn (getLineTurn_go (none :: sock) hroom hLF hch), if_neg hch.ne_nul,
            show len - 1 - buf.length - 1 + 1 = len - 1 - buf.length by omega]
          exact ih buf ch (Or.inr hch) r
      | some c =>
        have hlen : (buf ++ [c]).length = buf.length + 1 := by simp
        rw [show len - 1 - buf.length = len - 1 - (buf ++ [c]).length + 1 by omega, lineFrom]
        by_cases hc : Ordinary c
        · rw [mem_map_corec_turn (getLineTurn_go (some c :: sock) hroom hLF hc), if_pos hc]
          exact ih (buf ++ [c]) c (Or.inr hc) r
        · rw [mem_map_corec_exit (getLineTurn_stop (some c :: sock) hroom hLF hc),
            if_neg hc, Option.some.injEq]
          rfl
    · rw [mem_map_corec_exit (getLineTurn_full hroom), Nat.sub_eq_zero_of_le hroom, lineFrom,
        Option.some.injEq]
      rfl

theorem mem_getLine_iff (len : ℕ) (sock : Schedule) (r : Bytes × Schedule) :
    r ∈ getLine len sock ↔ readLine (len - 1) sock = some r :=
  mem_finish_iff len sock [] NUL (Or.inl rfl) r

/-- **Successive calls return what `readLines` says.** -/
theorem mem_getLines_iff (len k : ℕ) (sock : Schedule) (r : List Bytes × Bytes) :
    r ∈ getLines len k sock ↔ readLines (len - 1) k sock = some r := by
  induction k generalizing sock r with
  | zero => simp [getLines, readLines, Computation.mem_pure_iff, eq_comm (a := r)]
  | succ k ih =>
    simp only [getLines, readLines, Computation.mem_bind_iff, Computation.mem_pure_iff,
      mem_getLine_iff, ih, Option.bind_eq_bind, Option.bind_eq_some_iff, Option.some.injEq,
      eq_comm (a := r)]

/-! ## A call depends on no other gap -/

section Gaps

variable {n : ℕ}

theorem reduceOption_noticedFrom (phase : Phase) (sock : Schedule) :
    (noticedFrom n phase sock).reduceOption = sock.reduceOption := by
  fun_induction noticedFrom n phase sock <;> simp_all

theorem noticedFrom_eq_nil (phase : Phase) {sock : Schedule} (h : sock.reduceOption = []) :
    noticedFrom n phase sock = [] := by
  fun_induction noticedFrom n phase sock <;> simp_all

theorem lastRecv_noticed (buf : Bytes) (ch : UInt8) (sock : Schedule) :
    (lastRecv buf ch (noticedFrom n .terminated sock)).finish =
      ((lastRecv buf ch sock).finish.1, noticedFrom n .start (lastRecv buf ch sock).finish.2) := by
  match sock with
  | [] => simp [noticedFrom]
  | none :: sock =>
    rw [noticedFrom]
    split_ifs with h
    · simp [noticedFrom_eq_nil, h]
    · rfl
  | some c :: sock => simp [noticedFrom]

theorem lineFrom_noticed (sock : Schedule) :
    ∀ (room : ℕ) (ch : UInt8) (buf : Bytes), Ordinary ch →
      lineFrom room ch buf (noticedFrom n (behind room) sock) =
        (lineFrom room ch buf sock).map fun r => (r.1, noticedFrom n .start r.2) := by
  induction sock with
  | nil =>
    intro room ch buf hch
    cases room with
    | zero => simp [noticedFrom, lineFrom]
    | succ room => simp [noticedFrom, lineFrom, hch.ne_nul]
  | cons x sock ih =>
    intro room ch buf hch
    cases room with
    | zero => simp [behind, lineFrom]
    | succ room =>
      cases x with
      | none =>
        rw [behind, noticedFrom, lineFrom, if_neg hch.ne_nul]
        exact ih (room + 1) ch buf hch
      | some c =>
        rw [behind, noticedFrom, lineFrom, lineFrom]
        by_cases hc : Ordinary c
        · rw [if_pos hc, if_pos hc, if_pos hc]
          exact ih room c (buf ++ [c]) hc
        · rw [if_neg hc, if_neg hc, if_neg hc, lastRecv_noticed]
          rfl

/-- **A call depends on no gap that `noticedFrom` leaves out.** -/
theorem readLine_noticed (sock : Schedule) :
    readLine (n + 1) (noticedFrom n .start sock) =
      (readLine (n + 1) sock).map fun r => (r.1, noticedFrom n .start r.2) := by
  match sock with
  | [] => rfl
  | some c :: sock =>
    rw [noticedFrom, readLine, readLine, lineFrom, lineFrom]
    by_cases hc : Ordinary c
    · rw [if_pos hc, if_pos hc, if_pos hc]
      exact lineFrom_noticed sock n c [c] hc
    · rw [if_neg hc, if_neg hc, if_neg hc, lastRecv_noticed]
      rfl
  | [none] => rfl
  | none :: none :: sock =>
    rw [noticedFrom, readLine, readLine, lineFrom, if_pos rfl]
    split_ifs with h
    · simp [lineFrom, noticedFrom_eq_nil, h]
    · rfl
  | none :: some c :: sock =>
    rw [noticedFrom, readLine, readLine]
    split_ifs with hc h
    · rfl
    · simp [lineFrom, noticedFrom_eq_nil, h, hc]
    · simp [lineFrom, hc]

theorem readLines_noticed (k : ℕ) (sock : Schedule) :
    readLines (n + 1) k (noticedFrom n .start sock) = readLines (n + 1) k sock := by
  induction k generalizing sock with
  | zero => rw [readLines, readLines, reduceOption_noticedFrom]
  | succ k ih =>
    rw [readLines, readLines, readLine_noticed]
    cases readLine (n + 1) sock with
    | none => rfl
    | some r => simp [ih]

/-! ## A call shows the others -/

/-- The noticed gaps of a line of the bytes `w` with `rest` left behind it: the byte behind
the one that ends it is missing. -/
def gapBehind (w rest : Bytes) : Schedule :=
  if (w.dropWhile (Ordinary ·)).length = 1 ∧ rest ≠ [] then [none] else []

/-- The noticed part of the schedule that a call has returned `line` for, when it has read
the bytes `w` and left `rest`. -/
def mark (line w rest : Bytes) : Schedule :=
  if w = [] then if rest = [] then [] else [none, none]
  else if line = [LF] ∧ w.all (Ordinary ·) then none :: w.map some
  else w.map some ++ gapBehind w rest

theorem gapBehind_cons {c : UInt8} (hc : Ordinary c) (w rest : Bytes) :
    gapBehind (c :: w) rest = gapBehind w rest := by
  rw [gapBehind, List.dropWhile_cons_of_pos (by simpa using hc)]
  rfl

theorem lastRecv_eq_mark (n : ℕ) (buf : Bytes) {c : UInt8} (hc : ¬ Ordinary c)
    (sock : Schedule) :
    ∃ w, (some c :: sock).reduceOption = c :: w ++ (lastRecv buf c sock).finish.2.reduceOption ∧
      some c :: noticedFrom n .terminated sock =
        (c :: w).map some ++ gapBehind (c :: w) (lastRecv buf c sock).finish.2.reduceOption ++
          noticedFrom n .start (lastRecv buf c sock).finish.2 := by
  have hgap : ∀ w rest, gapBehind (c :: w) rest =
      if w.length = 0 ∧ rest ≠ [] then [none] else [] := by
    intro w rest
    rw [gapBehind, List.dropWhile_cons_of_neg (by simpa using hc), List.length_cons]
    simp only [Nat.add_eq_right]
  match sock with
  | [] => exact ⟨[], rfl, by simp [hgap, noticedFrom]⟩
  | none :: sock =>
    refine ⟨[], rfl, ?_⟩
    show _ = _ ++ gapBehind [c] sock.reduceOption ++ noticedFrom n .start sock
    rw [noticedFrom, hgap]
    by_cases h : sock.reduceOption = []
    · simp [h, noticedFrom_eq_nil]
    · simp [h]
  | some d :: sock =>
    refine ⟨[d], rfl, ?_⟩
    show _ = _ ++ gapBehind [c, d] sock.reduceOption ++ noticedFrom n .start sock
    rw [noticedFrom, hgap]
    rfl

theorem lineFrom_eq_mark (sock : Schedule) :
    ∀ {room : ℕ} {ch : UInt8} {buf line : Bytes} {rest : Schedule}, Ordinary ch →
      lineFrom room ch buf sock = some (line, rest) →
      buf.length < line.length ∧ ∃ w, sock.reduceOption = w ++ rest.reduceOption ∧
        noticedFrom n (behind room) sock =
          w.map some ++ gapBehind w rest.reduceOption ++ noticedFrom n .start rest := by
  have hend : ∀ buf ch, buf.length < (endLine buf ch).length := by
    intro buf ch
    rw [endLine]
    split_ifs <;> simp
  induction sock with
  | nil =>
    intro room ch buf line rest hch h
    cases room with
    | zero =>
      obtain ⟨rfl, rfl⟩ : endLine buf ch = line ∧ [] = rest := by simpa [lineFrom] using h
      exact ⟨hend buf ch, [], rfl, rfl⟩
    | succ room => simp [lineFrom, hch.ne_nul] at h
  | cons x sock ih =>
    intro room ch buf line rest hch h
    cases room with
    | zero =>
      obtain ⟨rfl, rfl⟩ : endLine buf ch = line ∧ x :: sock = rest := by
        simpa [lineFrom] using h
      exact ⟨hend buf ch, [], rfl, rfl⟩
    | succ room =>
      cases x with
      | none =>
        rw [lineFrom, if_neg hch.ne_nul] at h
        rw [List.reduceOption_cons_of_none, behind, noticedFrom]
        exact ih hch h
      | some c =>
        rw [lineFrom] at h
        rw [behind, noticedFrom]
        by_cases hc : Ordinary c
        · rw [if_pos hc] at h ⊢
          obtain ⟨hlen, w, hw, hnoticed⟩ := ih hc h
          rw [List.length_append] at hlen
          refine ⟨by omega, c :: w, ?_, ?_⟩
          · rw [List.reduceOption_cons_of_some, hw, List.cons_append]
          · rw [hnoticed, gapBehind_cons hc]
            rfl
        · rw [if_neg hc, Option.some.injEq] at h
          rw [if_neg hc]
          obtain rfl : (lastRecv buf c sock).finish.1 = line := congrArg Prod.fst h
          obtain rfl : (lastRecv buf c sock).finish.2 = rest := congrArg Prod.snd h
          obtain ⟨w, hw, hnoticed⟩ := lastRecv_eq_mark n buf hc sock
          exact ⟨hend buf _, c :: w, hw, hnoticed⟩

/-- **What a call has read, returned and left shows every gap that it depends on.** -/
theorem noticedFrom_eq_mark {sock : Schedule} {line : Bytes} {rest : Schedule}
    (h : readLine (n + 1) sock = some (line, rest)) :
    ∃ w, sock.reduceOption = w ++ rest.reduceOption ∧
      noticedFrom n .start sock =
        mark line w rest.reduceOption ++ noticedFrom n .start rest := by
  match sock with
  | [] =>
    obtain ⟨-, rfl⟩ : _ ∧ [] = rest := by simpa [readLine, lineFrom] using h
    exact ⟨[], rfl, rfl⟩
  | some c :: sock =>
    rw [readLine, lineFrom] at h
    rw [noticedFrom]
    by_cases hc : Ordinary c
    · rw [if_pos hc] at h ⊢
      obtain ⟨hlen, w, hw, hnoticed⟩ := lineFrom_eq_mark sock hc h
      have hline : line ≠ [LF] := by
        rintro rfl
        simp at hlen
      refine ⟨c :: w, ?_, ?_⟩
      · rw [List.reduceOption_cons_of_some, hw, List.cons_append]
      · rw [hnoticed, mark, if_neg (List.cons_ne_nil c w), if_neg (fun h => hline h.1),
          gapBehind_cons hc]
        rfl
    · rw [if_neg hc, Option.some.injEq] at h
      rw [if_neg hc]
      obtain rfl : (lastRecv [] c sock).finish.2 = rest := congrArg Prod.snd h
      obtain ⟨w, hw, hnoticed⟩ := lastRecv_eq_mark n [] hc sock
      refine ⟨c :: w, hw, ?_⟩
      rw [hnoticed, mark, if_neg (List.cons_ne_nil c w), if_neg]
      simp [hc]
  | [none] =>
    obtain ⟨-, rfl⟩ : _ ∧ [] = rest := by
      simpa [readLine, lineFrom] using h
    exact ⟨[], rfl, rfl⟩
  | none :: none :: sock =>
    obtain ⟨rfl, rfl⟩ : endLine [] NUL = line ∧ sock = rest := by
      simpa [readLine, lineFrom] using h
    refine ⟨[], rfl, ?_⟩
    rw [noticedFrom, mark, if_pos rfl]
    split_ifs with hnil
    · rw [noticedFrom_eq_nil _ hnil, List.append_nil]
    · rfl
  | none :: some c :: sock =>
    obtain ⟨rfl, rfl⟩ : endLine [] c = line ∧ sock = rest := by
      simpa [readLine, lineFrom] using h
    refine ⟨[c], rfl, ?_⟩
    rw [noticedFrom, mark, if_neg (List.cons_ne_nil c [])]
    by_cases hc : Ordinary c
    · have hline : endLine [] c = [LF] := if_neg hc.ne_nul
      rw [if_pos hc, if_pos ⟨hline, by simpa using hc⟩]
      rfl
    · have hmark : ¬ (endLine [] c = [LF] ∧ [c].all (Ordinary ·)) := by simp [hc]
      rw [if_neg hc, if_neg hmark, gapBehind,
        List.dropWhile_cons_of_neg (by simpa using hc)]
      by_cases hnil : sock.reduceOption = []
      · simp [hnil, noticedFrom_eq_nil]
      · simp [hnil]

theorem lineFrom_eq_none (sock : Schedule) :
    ∀ {room : ℕ} {ch : UInt8} {buf : Bytes}, Ordinary ch → lineFrom room ch buf sock = none →
      noticedFrom n (behind room) sock = sock.reduceOption.map some := by
  induction sock with
  | nil => intro room ch buf _ _; simp [noticedFrom]
  | cons x sock ih =>
    intro room ch buf hch h
    cases room with
    | zero => simp [lineFrom] at h
    | succ room =>
      cases x with
      | none =>
        rw [lineFrom, if_neg hch.ne_nul] at h
        rw [List.reduceOption_cons_of_none, behind, noticedFrom]
        exact ih hch h
      | some c =>
        rw [lineFrom] at h
        by_cases hc : Ordinary c
        · rw [if_pos hc] at h
          rw [behind, noticedFrom, if_pos hc, ih hc h, List.reduceOption_cons_of_some,
            List.map_cons]
        · rw [if_neg hc] at h
          cases h

/-- A call that never returns has noticed no gap. -/
theorem noticedFrom_of_none {sock : Schedule} (h : readLine (n + 1) sock = none) :
    noticedFrom n .start sock = sock.reduceOption.map some := by
  match sock with
  | [] => rfl
  | none :: _ => simp [readLine, lineFrom] at h
  | some c :: sock =>
    rw [readLine, lineFrom] at h
    by_cases hc : Ordinary c
    · rw [if_pos hc] at h
      rw [noticedFrom, if_pos hc, lineFrom_eq_none sock hc h, List.reduceOption_cons_of_some,
        List.map_cons]
    · rw [if_neg hc] at h
      cases h

theorem length_of_lastRecv {buf line : Bytes} {ch : UInt8} {sock rest : Schedule}
    (h : some (lastRecv buf ch sock).finish = some (line, rest)) : rest.length ≤ sock.length := by
  obtain rfl : (lastRecv buf ch sock).finish.2 = rest := congrArg Prod.snd (Option.some.inj h)
  match sock with
  | [] => exact le_rfl
  | none :: _ => exact Nat.le_succ _
  | some _ :: _ => exact Nat.le_succ _

theorem length_lineFrom_le (sock : Schedule) :
    ∀ {room : ℕ} {ch : UInt8} {buf line : Bytes} {rest : Schedule},
      lineFrom room ch buf sock = some (line, rest) → rest.length ≤ sock.length := by
  induction sock with
  | nil =>
    intro room ch buf line rest h
    cases room with
    | zero => simp_all [lineFrom]
    | succ room => simp_all [lineFrom]
  | cons x sock ih =>
    intro room ch buf line rest h
    cases room with
    | zero => simp_all [lineFrom]
    | succ room =>
      apply Nat.le_succ_of_le
      cases x with
      | none =>
        rw [lineFrom] at h
        split_ifs at h with hch
        · exact length_of_lastRecv h
        · exact ih h
      | some c =>
        rw [lineFrom] at h
        split_ifs at h with hc
        · exact ih h
        · exact length_of_lastRecv h

theorem length_readLine_lt {sock : Schedule} (hne : sock ≠ []) {line : Bytes} {rest : Schedule}
    (h : readLine (n + 1) sock = some (line, rest)) : rest.length < sock.length := by
  obtain ⟨x, sock, rfl⟩ := List.exists_cons_of_ne_nil hne
  apply Nat.lt_succ_of_le
  cases x with
  | none => exact length_of_lastRecv h
  | some c =>
    rw [readLine, lineFrom] at h
    split_ifs at h with hc
    · exact length_lineFrom_le sock h
    · exact length_of_lastRecv h

theorem readLine_of_readLines {sock₁ sock₂ : Schedule}
    (h : ∀ k, readLines n k sock₁ = readLines n k sock₂) {line : Bytes} {rest₁ : Schedule}
    (hread : readLine n sock₁ = some (line, rest₁)) :
    ∃ rest₂, readLine n sock₂ = some (line, rest₂) ∧
      ∀ k, readLines n k rest₁ = readLines n k rest₂ := by
  have hone := h 1
  cases hread₂ : readLine n sock₂ with
  | none => simp [readLines, hread, hread₂] at hone
  | some r =>
    obtain ⟨line₂, rest₂⟩ := r
    obtain ⟨rfl, -⟩ : line = line₂ ∧ rest₁.reduceOption = rest₂.reduceOption := by
      simpa [readLines, hread, hread₂] using hone
    refine ⟨rest₂, rfl, ?_⟩
    intro k
    have hmore := h (k + 1)
    rw [readLines, readLines, hread, hread₂] at hmore
    cases hk₁ : readLines n k rest₁ <;> cases hk₂ : readLines n k rest₂ <;>
      simp_all [Prod.ext_iff]

theorem noticedFrom_eq_of_readLines (m : ℕ) :
    ∀ sock₁ sock₂ : Schedule, sock₁.length ≤ m → sock₁.reduceOption = sock₂.reduceOption →
      (∀ k, readLines (n + 1) k sock₁ = readLines (n + 1) k sock₂) →
      noticedFrom n .start sock₁ = noticedFrom n .start sock₂ := by
  induction m with
  | zero =>
    intro sock₁ sock₂ hm hbytes _
    obtain rfl := List.length_eq_zero_iff.mp (Nat.le_zero.mp hm)
    rw [noticedFrom_eq_nil _ rfl, noticedFrom_eq_nil _ hbytes.symm]
  | succ m ih =>
    intro sock₁ sock₂ hm hbytes h
    by_cases hnil : sock₁ = []
    · subst hnil
      rw [noticedFrom_eq_nil _ rfl, noticedFrom_eq_nil _ hbytes.symm]
    cases hread : readLine (n + 1) sock₁ with
    | none =>
      have hread₂ : readLine (n + 1) sock₂ = none := by
        by_contra hne
        obtain ⟨⟨line, rest⟩, hsome⟩ := Option.ne_none_iff_exists'.mp hne
        obtain ⟨rest₁, hsome₁, -⟩ := readLine_of_readLines (fun k => (h k).symm) hsome
        rw [hread] at hsome₁
        cases hsome₁
      rw [noticedFrom_of_none hread, noticedFrom_of_none hread₂, hbytes]
    | some r =>
      obtain ⟨line, rest₁⟩ := r
      obtain ⟨rest₂, hread₂, hrest⟩ := readLine_of_readLines h hread
      have hlen := length_readLine_lt hnil hread
      have hleft : rest₁.reduceOption = rest₂.reduceOption := by
        have hzero := hrest 0
        simpa [readLines] using hzero
      obtain ⟨w₁, hw₁, hnoticed₁⟩ := noticedFrom_eq_mark hread
      obtain ⟨w₂, hw₂, hnoticed₂⟩ := noticedFrom_eq_mark hread₂
      obtain rfl : w₁ = w₂ := by
        rw [hbytes, hw₂, hleft] at hw₁
        exact (List.append_cancel_right hw₁).symm
      rw [hnoticed₁, hnoticed₂, hleft, ih rest₁ rest₂ (by omega) hleft hrest]

end Gaps

theorem readLines_zero (k : ℕ) (sock : Schedule) :
    readLines 0 k sock = some (List.replicate k [NUL], sock.reduceOption) := by
  induction k with
  | zero => rfl
  | succ k ih =>
    have hread : readLine 0 sock = some ([NUL], sock) := by simp [readLine, lineFrom, endLine]
    simp [readLines, hread, ih, List.replicate_succ]

theorem readAlike_iff_readLines (len : ℕ) (sock₁ sock₂ : Schedule) :
    ReadAlike len sock₁ sock₂ ↔
      ∀ k, readLines (len - 1) k sock₁ = readLines (len - 1) k sock₂ := by
  simp only [ReadAlike, mem_getLines_iff]
  exact forall_congr' fun k => Option.ext_iff.symm

/-- **Arrival timing.** Two schedules of the same bytes give the same lines, and each call
leaves the same bytes of both, exactly when they have the same noticed gaps. -/
theorem timing_iff (len : ℕ) (sock₁ sock₂ : Schedule)
    (hbytes : sock₁.reduceOption = sock₂.reduceOption) :
    ReadAlike len sock₁ sock₂ ↔ noticed len sock₁ = noticed len sock₂ := by
  rw [readAlike_iff_readLines, noticed, noticed]
  cases len - 1 with
  | zero => simp [readLines_zero, hbytes]
  | succ n =>
    constructor
    · exact noticedFrom_eq_of_readLines _ sock₁ sock₂ le_rfl hbytes
    · intro (h : noticedFrom n .start sock₁ = noticedFrom n .start sock₂) k
      rw [← readLines_noticed k sock₁, h, readLines_noticed]

/-- A gap inside the line is not noticed. -/
theorem timing_iff_example :
    ReadAlike SIZE [some 71, none, none, some 10, some 13] [some 71, some 10, some 13, none] :=
  (timing_iff SIZE [some 71, none, none, some 10, some 13]
    [some 71, some 10, some 13, none] (by decide)).mpr (by decide)

/-- `G`, then the end of the line. With a gap before them the first line is empty. -/
theorem gap_before_line :
    ¬ ReadAlike SIZE [none, some 71, some 13, some 10] [some 71, some 13, some 10] := by
  rw [readAlike_iff_readLines]
  intro h
  exact absurd (h 1) (by decide)

end FacePerception.Epoll
