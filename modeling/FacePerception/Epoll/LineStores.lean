import FacePerception.Epoll.GetLine
import FacePerception.Server.LineStores

/-!
# Where `get_line` of the epoll server stores

`get_line` (`server/server.h`, lines 46–71) with every index of `buf` it stores at. Where
the last byte read is `'\0'` it counts the `'\0'` it stores (`buf[i++]='\0'`), so that
with a `buf` of one byte even an empty line is too long for the caller's bound.

Results:
* `getLineStores_eq`: with the stores forgotten it is `getLine`.
* `inBounds_iff`: the schedules on which it keeps inside `buf`.
* `getLine_inBounds_iff`: the same for the two servers.
-/

namespace FacePerception.Epoll

open CString
open FacePerception.Server (Ordinary StoreState Stored storeTurn storeLF storesOf InBounds
  EndsWithin storesOf_singleton_append stored_inBounds)

/-- Lines 63–69 of `server.h`. -/
def storeEnd (s : StoreState Schedule) : Stored Schedule :=
  if s.ch = NUL then ⟨s.stores ++ [(s.i, NUL)], s.i + 1, s.sock⟩ else storeLF s

/-- `get_line`, with its stores. -/
def getLineStores (size : ℕ) (sock : Schedule) : Computation (Stored Schedule) :=
  storeEnd <$> Computation.corec (storeTurn recv size) ⟨0, NUL, sock, []⟩

/-! ## Its stores are the line -/

/-- The loop with its stores, in terms of the loop that only keeps the line. -/
def LineState.stored (s : LineState) : StoreState Schedule :=
  ⟨s.buf.length, s.ch, s.sock, storesOf s.buf⟩

theorem storeTurn_stored (size : ℕ) (s : LineState) :
    storeTurn recv size s.stored =
      Sum.map LineState.stored LineState.stored (getLineTurn size s) := by
  obtain ⟨buf, ch, sock⟩ := s
  dsimp only [storeTurn, getLineTurn, LineState.stored]
  obtain ⟨num, ch', sock'⟩ := recv ch sock
  dsimp only
  split_ifs with hgo hend hnum
  · rfl
  · rw [Sum.map_inr, LineState.stored, storesOf_singleton_append, List.length_append]
    rfl
  · rfl
  · rfl

/-- What is stored for a line: a `'\0'` it ends with is stored but once. -/
def stringOf (line : Bytes) : Bytes := if line.getLast? = some NUL then line else line ++ [NUL]

/-- What is stored for a line, with the result of the call. -/
def storedLine (r : Bytes × Schedule) : Stored Schedule :=
  ⟨storesOf (stringOf r.1), r.1.length, r.2⟩

theorem nul_mem_stringOf (line : Bytes) : NUL ∈ stringOf line := by
  rw [stringOf]
  split_ifs with h
  · exact List.mem_of_getLast? h
  · exact List.mem_append_right _ (List.mem_singleton.mpr rfl)

theorem length_stringOf (line : Bytes) : (stringOf line).length ≤ line.length + 1 := by
  rw [stringOf]
  split_ifs
  · exact Nat.le_succ _
  · exact List.length_append.le

theorem storeEnd_stored (s : LineState) : storeEnd s.stored = storedLine s.finish := by
  have hLF : (s.buf ++ [LF]).getLast? ≠ some NUL := by
    rw [List.getLast?_append_of_ne_nil _ (List.cons_ne_nil _ _)]
    decide
  unfold storeEnd storedLine LineState.finish endLine
  show (if s.ch = NUL then _ else _) = _
  split_ifs
  · rw [stringOf, if_pos List.getLast?_concat, storesOf_singleton_append, List.length_append]
    rfl
  · rw [stringOf, if_neg hLF, storesOf_singleton_append, storesOf_singleton_append,
      List.append_assoc, List.length_append]
    rfl

theorem getLineStores_eq (size : ℕ) (sock : Schedule) :
    getLineStores size sock = storedLine <$> getLine size sock := by
  have hloop := Computation.corec_map (storeTurn_stored size) ⟨[], NUL, sock⟩
  show storeEnd <$> Computation.corec _ (LineState.stored ⟨[], NUL, sock⟩) = _
  rw [hloop, getLine]
  show Computation.map _ (Computation.map _ _) = Computation.map _ (Computation.map _ _)
  rw [← Computation.map_comp, ← Computation.map_comp]
  congr 1
  funext s
  exact storeEnd_stored s

/-! ## When it keeps inside its array -/

theorem inBounds_getLineStores {size : ℕ} (hsize : 0 < size) (sock : Schedule) :
    InBounds size (getLineStores size sock) ↔
      ∃ line rest, readLine (size - 1) sock = some (line, rest) ∧ line.length ≤ size - 1 := by
  have hline : ∀ line rest, ((∀ store ∈ (storedLine (line, rest)).stores, store.1 < size) ∧
      (∀ buf : Bytes, buf.length = size → NUL ∈ (storedLine (line, rest)).apply buf) ∧
      (storedLine (line, rest)).count ≤ size - 1) ↔ line.length ≤ size - 1 :=
    fun line rest => stored_inBounds hsize (w := stringOf line) rfl (nul_mem_stringOf line)
      (length_stringOf line)
  simp only [InBounds, getLineStores_eq, Computation.mem_map_iff, Prod.exists, mem_getLine_iff]
  constructor
  · rintro ⟨_, ⟨line, rest, hread, rfl⟩, hbounds⟩
    exact ⟨line, rest, hread, (hline line rest).mp hbounds⟩
  · rintro ⟨line, rest, hread, hlen⟩
    exact ⟨_, ⟨line, rest, hread, rfl⟩, (hline line rest).mpr hlen⟩

theorem length_endLine (buf : Bytes) (ch : UInt8) : (endLine buf ch).length = buf.length + 1 := by
  rw [endLine]
  split_ifs
  · exact List.length_append
  · exact List.length_append

theorem endsWithin_cons {room : ℕ} {c : UInt8} {sock : Bytes} (hc : Ordinary c) :
    EndsWithin (room + 1) (c :: sock) ↔ EndsWithin room sock := by
  constructor
  · rintro ⟨w, t, rest, heq, hlen, hw, ht⟩
    cases w with
    | nil =>
      rw [List.nil_append, List.cons.injEq] at heq
      exact absurd hc (heq.1 ▸ ht)
    | cons d w =>
      rw [List.cons_append, List.cons.injEq] at heq
      exact ⟨w, t, rest, heq.2, Nat.lt_of_succ_lt_succ hlen, (List.forall_mem_cons.mp hw).2, ht⟩
  · rintro ⟨w, t, rest, rfl, hlen, hw, ht⟩
    exact ⟨c :: w, t, rest, rfl, Nat.succ_lt_succ hlen, List.forall_mem_cons.mpr ⟨hc, hw⟩, ht⟩

theorem endsWithin_of_not_ordinary {room : ℕ} {c : UInt8} (hc : ¬ Ordinary c) (sock : Bytes) :
    EndsWithin (room + 1) (c :: sock) :=
  ⟨[], c, sock, rfl, Nat.succ_pos room, by simp, hc⟩

/-- Behind the first byte of a line the gaps make no difference. -/
theorem lineFrom_fits_iff (sock : Schedule) :
    ∀ (room : ℕ) (ch : UInt8) (buf : Bytes), Ordinary ch →
      ((∃ line rest, lineFrom room ch buf sock = some (line, rest) ∧
          line.length ≤ buf.length + room) ↔ EndsWithin room sock.reduceOption) := by
  induction sock with
  | nil =>
    intro room ch buf hch
    refine iff_of_false ?_ ?_
    · rintro ⟨line, rest, hread, hlen⟩
      cases room with
      | zero =>
        rw [lineFrom, Option.some.injEq, Prod.mk.injEq] at hread
        rw [← hread.1, length_endLine] at hlen
        omega
      | succ room =>
        rw [lineFrom, if_neg hch.ne_nul] at hread
        cases hread
    · rintro ⟨w, t, rest, heq, -⟩
      simp at heq
  | cons x sock ih =>
    intro room ch buf hch
    cases room with
    | zero =>
      refine iff_of_false ?_ ?_
      · rintro ⟨line, rest, hread, hlen⟩
        rw [lineFrom, Option.some.injEq, Prod.mk.injEq] at hread
        rw [← hread.1, length_endLine] at hlen
        omega
      · rintro ⟨w, t, rest, -, hlen, -⟩
        omega
    | succ room =>
      cases x with
      | none =>
        rw [lineFrom, if_neg hch.ne_nul, List.reduceOption_cons_of_none]
        exact ih (room + 1) ch buf hch
      | some c =>
        rw [lineFrom, List.reduceOption_cons_of_some]
        by_cases hc : Ordinary c
        · rw [if_pos hc, endsWithin_cons hc, ← ih room c (buf ++ [c]) hc, List.length_append,
            List.length_singleton, Nat.add_assoc, Nat.add_comm 1 room]
        · rw [if_neg hc]
          refine iff_of_true ⟨_, _, rfl, ?_⟩ (endsWithin_of_not_ordinary hc _)
          show (endLine buf _).length ≤ _
          rw [length_endLine]
          omega

/-- **`get_line` of `server.h` keeps inside `buf` iff it gets to the end of a line before
`buf` is full**, or finds nothing to read; except with a `buf` of one byte. -/
theorem inBounds_iff {size : ℕ} (hsize : 0 < size) (sock : Schedule) :
    InBounds size (getLineStores size sock) ↔
      size ≠ 1 ∧ (sock.head?.join = none ∨ EndsWithin (size - 1) sock.reduceOption) := by
  rw [inBounds_getLineStores hsize]
  obtain ⟨n, rfl⟩ : ∃ n, size = n + 1 := ⟨size - 1, by omega⟩
  rw [Nat.add_sub_cancel]
  cases n with
  | zero =>
    refine iff_of_false ?_ (fun h => h.1 rfl)
    rintro ⟨line, rest, hread, hlen⟩
    rw [readLine, lineFrom, Option.some.injEq, Prod.mk.injEq] at hread
    rw [← hread.1, length_endLine] at hlen
    omega
  | succ n =>
    have hne : n + 1 + 1 ≠ 1 := by omega
    have hshort : ∀ s : LineState, s.buf = [] → s.finish.1.length ≤ n + 1 := by
      intro s hs
      rw [LineState.finish, length_endLine, hs, List.length_nil]
      omega
    cases sock with
    | nil => exact iff_of_true ⟨[NUL], [], rfl, by simp⟩ ⟨hne, Or.inl rfl⟩
    | cons x sock =>
      cases x with
      | none =>
        refine iff_of_true ?_ ⟨hne, Or.inl rfl⟩
        exact ⟨_, _, (if_pos rfl : lineFrom (n + 1) NUL [] (none :: sock) = _), hshort _ rfl⟩
      | some c =>
        have hjoin : (some c :: sock).head?.join ≠ none := Option.some_ne_none c
        rw [readLine, lineFrom, List.reduceOption_cons_of_some]
        simp only [hne, hjoin, ne_eq, not_false_iff, true_and, false_or]
        by_cases hc : Ordinary c
        · rw [endsWithin_cons hc, ← lineFrom_fits_iff sock n c [c] hc, if_pos hc,
            List.length_singleton, Nat.add_comm 1 n]
          rfl
        · rw [if_neg hc]
          exact iff_of_true ⟨_, _, rfl, hshort _ rfl⟩ (endsWithin_of_not_ordinary hc _)

/-- **When the two `get_line` keep inside their arrays.** -/
theorem getLine_inBounds_iff {size : ℕ} (hsize : 0 < size) (sock : Bytes) (sched : Schedule) :
    (InBounds size (Server.getLineStores size sock) ↔
      size = 1 ∨ sock = [] ∨ EndsWithin (size - 1) sock) ∧
    (InBounds size (getLineStores size sched) ↔
      size ≠ 1 ∧ (sched.head?.join = none ∨ EndsWithin (size - 1) sched.reduceOption)) :=
  ⟨Server.inBounds_iff hsize sock, inBounds_iff hsize sched⟩

/-- An empty line in an array of four bytes. -/
theorem getLine_inBounds_iff_example :
    (InBounds 4 (Server.getLineStores 4 [LF]) ↔
      4 = 1 ∨ [LF] = [] ∨ EndsWithin (4 - 1) [LF]) ∧
    (InBounds 4 (getLineStores 4 [some LF]) ↔
      4 ≠ 1 ∧ ([some LF].head?.join = none ∨ EndsWithin (4 - 1) [some LF].reduceOption)) :=
  getLine_inBounds_iff (by decide) [LF] [some LF]

theorem not_endsWithin_replicate {n k : ℕ} {c : UInt8} (hc : Ordinary c) :
    ¬ EndsWithin n (List.replicate k c) := by
  rintro ⟨w, t, rest, heq, -, -, ht⟩
  have hmem : t ∈ List.replicate k c := by
    rw [heq]
    simp
  rw [List.eq_of_mem_replicate hmem] at ht
  exact ht hc

/-- A line of as many bytes as `buf` has room for. -/
theorem not_inBounds_full_line :
    ¬ InBounds Server.SIZE (Server.getLineStores Server.SIZE
        (List.replicate (Server.SIZE - 1) (ch 'a'))) ∧
      ¬ InBounds SIZE (getLineStores SIZE (List.replicate (SIZE - 1) (some (ch 'a')))) := by
  have ha : Ordinary (ch 'a') := by decide
  constructor
  · rw [Server.inBounds_iff (by decide)]
    rintro (h | h | h)
    · exact absurd h (by decide)
    · exact absurd (List.replicate_eq_nil_iff _ |>.mp h) (by decide)
    · exact not_endsWithin_replicate ha h
  · have hbytes : (List.replicate (SIZE - 1) (some (ch 'a'))).reduceOption =
        List.replicate (SIZE - 1) (ch 'a') := List.filterMap_replicate_of_some rfl
    rw [inBounds_iff (by decide), hbytes]
    rintro ⟨-, h | h⟩
    · exact absurd h (by decide)
    · exact not_endsWithin_replicate ha h

end FacePerception.Epoll
