import FacePerception.Lib.CString
import FacePerception.Epoll.Dispatch

/-!
# `epoll_lt`

The loop of `epoll_lt` (`server/server.h`, lines 262–299) over a batch. All sockets of the
batch are read into one array on the stack, of which `memset` clears `sizeof(BUF_SIZE)`
bytes, the size of an `int`; the loop of `epoll_et` clears `sizeof(buf)` and leaves room
for a `'\0'` (lines 333–334).

The stack from `buf` on is a list of bytes of any length, with zeros behind it.

Results:
* `cstr_received`: what is printed for a chunk.
* `logsExactly_iff`: when every chunk of a batch is printed as it was received.
* `not_logsExactly_long_short`: a chunk is printed with the end of one from another client.
-/

namespace FacePerception.Epoll

open CString

def BUF_SIZE : ℕ := 128

/-- `sizeof(BUF_SIZE)`. -/
def SIZEOF_INT : ℕ := 4

/-- What `recv` has stored, of bytes other than `'\0'`. -/
structure Chunk where
  data : Bytes
  data_ne_nil : data ≠ []
  length_le : data.length ≤ BUF_SIZE
  nul_notMem : NUL ∉ data

/-- An event of a batch, what `accept` returns for it, and what `recv` stores; `none` for a
result of 0 or −1. -/
structure LtTurn where
  event : EpollEvent
  accepted : ℤ
  received : Option Chunk

/-- What a turn of the loop does. -/
inductive LtAct
  | accepted (fd : ℤ)
  | closed (fd : ℤ)
  /-- `get ret bytes of content : text`. -/
  | logged (ret : ℕ) (text : Bytes)
  | other
deriving DecidableEq

/-- `memset(buf,'\0',sizeof(BUF_SIZE))` (line 284). -/
def clearInt (stack : Bytes) : Bytes := List.replicate SIZEOF_INT NUL ++ stack.drop SIZEOF_INT

/-- `recv(sockfd,buf,BUF_SIZE,0)` (line 285). -/
def store (data stack : Bytes) : Bytes := data ++ stack.drop data.length

/-- A turn of the loop (lines 269–297): the stack behind it and what it has done. -/
def ltTurn (listenSock : ℤ) (stack : Bytes) (t : LtTurn) : Bytes × LtAct :=
  if t.event.fd = listenSock then (stack, .accepted t.accepted)
  else if t.event.epollin then
    let stack := clearInt stack
    match t.received with
    | none => (stack, .closed t.event.fd)
    | some chunk =>
      let stack := store chunk.data stack
      (stack, .logged chunk.data.length (cstr stack))
  else (stack, .other)

/-- `epoll_lt` on a batch. -/
def epollLt (listenSock : ℤ) : Bytes → List LtTurn → List LtAct
  | _, [] => []
  | stack, t :: batch =>
    let r := ltTurn listenSock stack t
    r.2 :: epollLt listenSock r.1 batch

/-! ## What is logged -/

/-- The text behind `content : `. -/
def LtAct.text : LtAct → Option Bytes
  | .logged _ text => some text
  | _ => none

/-- What the loop receives in a turn. -/
def LtTurn.chunk (listenSock : ℤ) (t : LtTurn) : Option Bytes :=
  if t.event.fd ≠ listenSock ∧ t.event.epollin = true then t.received.map (·.data) else none

/-- The chunks of a batch, in order. -/
def chunks (listenSock : ℤ) (batch : List LtTurn) : List Bytes :=
  batch.filterMap (·.chunk listenSock)

/-- The text that is logged for each chunk is that chunk. -/
def LogsExactly (listenSock : ℤ) (stack : Bytes) (batch : List LtTurn) : Prop :=
  (epollLt listenSock stack batch).filterMap LtAct.text = chunks listenSock batch

/-- `memset` has cleared the byte behind the chunk, or it was `'\0'` before. -/
def EndsClean (stack chunk : Bytes) : Prop :=
  chunk.length < SIZEOF_INT ∨ deref (stack.drop chunk.length) = NUL

/-- The same of what an earlier chunk has left. -/
def CoversEarlier (earlier chunk : Bytes) : Prop :=
  chunk.length < SIZEOF_INT ∨ earlier.length ≤ chunk.length

/-! ## The stack -/

theorem deref_drop_clearInt (stack : Bytes) (k : ℕ) :
    deref ((clearInt stack).drop k) = NUL ↔ k < SIZEOF_INT ∨ deref (stack.drop k) = NUL := by
  have hlen : (List.replicate SIZEOF_INT NUL).length = SIZEOF_INT := List.length_replicate
  rcases Nat.lt_or_ge k SIZEOF_INT with hk | hk
  · refine iff_of_true ?_ (Or.inl hk)
    obtain ⟨m, hm⟩ : ∃ m, SIZEOF_INT - k = m + 1 := ⟨SIZEOF_INT - k - 1, by omega⟩
    rw [clearInt, List.drop_append_of_le_length (by omega), List.drop_replicate, hm]
    rfl
  · obtain ⟨m, rfl⟩ := Nat.exists_eq_add_of_le hk
    rw [clearInt, ← List.drop_drop, List.drop_left' hlen, List.drop_drop,
      or_iff_right (by omega)]

theorem endsClean_clearInt (stack chunk : Bytes) :
    EndsClean (clearInt stack) chunk ↔ EndsClean stack chunk := by
  rw [EndsClean, EndsClean, deref_drop_clearInt, ← or_assoc, or_self]

/-- **What is printed for a chunk** goes on with the bytes behind it. -/
theorem cstr_received (chunk : Chunk) (stack : Bytes) :
    cstr (store chunk.data stack) = chunk.data ++ cstr (stack.drop chunk.data.length) :=
  cstr_append chunk.nul_notMem _

theorem cstr_received_eq_iff (chunk : Chunk) (stack : Bytes) :
    cstr (store chunk.data (clearInt stack)) = chunk.data ↔ EndsClean stack chunk.data := by
  rw [cstr_received, List.append_right_eq_self, ← deref_eq_NUL_iff, deref_drop_clearInt,
    EndsClean]

/-- What a chunk leaves for the next ones. -/
theorem endsClean_received (chunk : Chunk) (stack next : Bytes) :
    EndsClean (store chunk.data (clearInt stack)) next ↔
      CoversEarlier chunk.data next ∧ EndsClean stack next := by
  rw [EndsClean, CoversEarlier]
  rcases Nat.lt_or_ge next.length SIZEOF_INT with hint | hint
  · exact iff_of_true (Or.inl hint) ⟨Or.inl hint, Or.inl hint⟩
  · rw [or_iff_right (by omega), or_iff_right (by omega)]
    rcases Nat.lt_or_ge next.length chunk.data.length with hlt | hge
    · -- a byte of the chunk itself
      refine iff_of_false ?_ fun h => absurd h.1 (by omega)
      rw [store, List.drop_append_of_le_length hlt.le, List.drop_eq_getElem_cons hlt]
      exact fun h => chunk.nul_notMem (h ▸ List.getElem_mem hlt)
    · obtain ⟨m, hm⟩ := Nat.exists_eq_add_of_le hge
      have hdrop : (store chunk.data (clearInt stack)).drop next.length =
          (clearInt stack).drop next.length := by
        rw [store, hm, ← List.drop_drop, List.drop_left, List.drop_drop]
      rw [hdrop, deref_drop_clearInt, EndsClean]
      exact (and_iff_right hge).symm

/-! ## The batch -/

section Batch

variable {listenSock : ℤ} {t : LtTurn}

/-- A turn that receives nothing. -/
theorem ltTurn_of_none (h : t.chunk listenSock = none) (stack : Bytes) :
    (ltTurn listenSock stack t).2.text = none ∧
      ∀ chunk, EndsClean (ltTurn listenSock stack t).1 chunk ↔ EndsClean stack chunk := by
  rw [LtTurn.chunk] at h
  rw [ltTurn]
  by_cases hlisten : t.event.fd = listenSock
  · rw [if_pos hlisten]
    exact ⟨rfl, fun _ => Iff.rfl⟩
  · rw [if_neg hlisten]
    by_cases hin : t.event.epollin = true
    · rw [if_pos ⟨hlisten, hin⟩, Option.map_eq_none_iff] at h
      rw [if_pos hin, h]
      exact ⟨rfl, fun chunk => endsClean_clearInt stack chunk⟩
    · rw [if_neg hin]
      exact ⟨rfl, fun _ => Iff.rfl⟩

/-- A turn that receives a chunk. -/
theorem ltTurn_of_some {data : Bytes} (h : t.chunk listenSock = some data) (stack : Bytes) :
    ∃ chunk : Chunk, chunk.data = data ∧
      ltTurn listenSock stack t = (store chunk.data (clearInt stack),
        .logged chunk.data.length (cstr (store chunk.data (clearInt stack)))) := by
  rw [LtTurn.chunk] at h
  split_ifs at h with hin
  obtain ⟨chunk, hchunk, hdata⟩ := Option.map_eq_some_iff.mp h
  refine ⟨chunk, hdata, ?_⟩
  rw [ltTurn, if_neg hin.1, if_pos hin.2, hchunk]

end Batch

/-- **Every chunk is printed as it was received iff** no chunk of four bytes or more is
shorter than an earlier one, and the stack has a `'\0'` behind each of them. -/
theorem logsExactly_iff (listenSock : ℤ) (stack : Bytes) (batch : List LtTurn) :
    LogsExactly listenSock stack batch ↔
      (chunks listenSock batch).Pairwise CoversEarlier ∧
        ∀ chunk ∈ chunks listenSock batch, EndsClean stack chunk := by
  induction batch generalizing stack with
  | nil => exact iff_of_true rfl ⟨.nil, by simp [chunks]⟩
  | cons t batch ih =>
    rw [LogsExactly, epollLt, chunks]
    cases hchunk : t.chunk listenSock with
    | none =>
      obtain ⟨htext, hclean⟩ := ltTurn_of_none hchunk stack
      have hrest := ih (ltTurn listenSock stack t).1
      simp only [hclean] at hrest
      rw [List.filterMap_cons_none htext, List.filterMap_cons_none hchunk]
      exact hrest
    | some data =>
      obtain ⟨chunk, rfl, hturn⟩ := ltTurn_of_some hchunk stack
      have hrest := ih (store chunk.data (clearInt stack))
      simp only [endsClean_received] at hrest
      have htext : (LtAct.logged chunk.data.length
          (cstr (store chunk.data (clearInt stack)))).text =
            some (cstr (store chunk.data (clearInt stack))) := rfl
      rw [hturn, List.filterMap_cons_some htext, List.filterMap_cons_some hchunk,
        List.cons.injEq, cstr_received_eq_iff, List.pairwise_cons, List.forall_mem_cons]
      rw [LogsExactly, chunks] at hrest
      rw [hrest]
      constructor
      · intro ⟨hclean, hpair, hall⟩
        exact ⟨⟨fun next hnext => (hall next hnext).1, hpair⟩, hclean,
          fun next hnext => (hall next hnext).2⟩
      · intro ⟨⟨hcovers, hpair⟩, hclean, hall⟩
        exact ⟨hclean, hpair, fun next hnext => ⟨hcovers next hnext, hall next hnext⟩⟩

/-- A chunk from descriptor `fd`. -/
def received (fd : ℤ) (chunk : Chunk) : LtTurn := ⟨⟨fd, true⟩, -1, some chunk⟩

/-- A client has sent `password=abc` and another one `quit`. -/
def longShort : List LtTurn :=
  [received 5 ⟨bytes "password=abc", by decide, by decide, by decide⟩,
    received 6 ⟨bytes "quit", by decide, by decide, by decide⟩]

/-- The second chunk is printed with the end of the first; without the first it is printed
as it is. -/
theorem not_logsExactly_long_short :
    ¬ LogsExactly 3 [] longShort ∧
      (epollLt 3 [] longShort).filterMap LtAct.text =
        [bytes "password=abc", bytes "quitword=abc"] ∧
      (epollLt 3 [] longShort.tail).filterMap LtAct.text = [bytes "quit"] := by
  refine ⟨fun h => ?_, by decide, by decide⟩
  rw [LogsExactly] at h
  exact absurd h (by decide)

end FacePerception.Epoll
