import FacePerception.Lib.Mutex
import FacePerception.Server.GetString
import FacePerception.Server.Threads

/-!
# The mutex of `send_vector`

`send_vector` and the functions it calls (`server/server_http.h`, lines 54–196 and
539–605) as threads over the one mutex of `server_http`, a statement or a turn of a
loop at a time. What the statements do to the shared state is what the steps of
`Threads` do, `get_string` apart, whose loops move their own pointer here. A read
or a write outside an array is a halt; a failed assertion ends the process.

The texts that the departure branch builds from a record are local and are only
printed; they are left out, the locks around them are not.

Results:
* `disciplined`: no path through `send_vector` locks inside a section or unlocks
  outside one.
* `lock_discipline`: what follows for every interleaving.
* `shared_run`: the shared state goes through a run of `Threads`.
-/

namespace FacePerception.Server.Locks

open CString Mutex

/-- The numbers `int_to_string` renders, in its order. -/
inductive Part
  | data
  | hour
  | min
  | sec
deriving DecidableEq

/-- Where a thread stands in `send_vector`. -/
inductive Point
  /-- The assertion of `get_string` (line 58). -/
  | getString
  /-- Lines 63–67, and `tmp[i]='\0'` (line 69). -/
  | lockName | skipName | copyName | unlockName | endName
  /-- Lines 71–74, and `id=query` (line 75). -/
  | lockId | skipId | unlockId | setId
  /-- `time(NULL)` (line 86), and the section of lines 88–90. -/
  | askTime | lockTime | readTime | unlockTime
  /-- `find_id`: the scan, the section of lines 107–109, and `return v.end()`. -/
  | scan | lockSize | countSize | unlockSize | notFound
  /-- The test `prev !=v.end()` (line 560). -/
  | compare
  /-- Lines 564–570. -/
  | setEnd | setLeave | addTime | carry
  /-- The section of `get_total_string` (lines 185–194). -/
  | lockTotal | total | unlockTotal
  /-- `int_to_str` and the section after it in `int_to_string` (lines 152–180). -/
  | format (k : Part) | lockPart (k : Part) | append (k : Part) | unlockPart (k : Part)
  /-- Lines 585–590. -/
  | lockInsert | unlockInsert
  /-- The section of lines 594–601. -/
  | lockPush | push | unlockPush
  /-- `show()` (line 604). -/
  | showing
  | done
deriving DecidableEq

/-- A thread's place and its local variables: `query` of `get_string` as a position,
what `tmp` holds there, and `_t` of `get_time`. -/
structure Local where
  point : Point
  pos : ℕ
  name : Bytes
  clock : ℤ

/-- A thread that has just entered `send_vector`. -/
def Local.enter : Local where
  point := .getString
  pos := 0
  name := []
  clock := 0

/-- What comes after the section for `k` in `int_to_string`. -/
def Part.after : Part → Point
  | .data => .format .hour
  | .hour => .format .min
  | .min => .format .sec
  | .sec => .lockInsert

/-- Between a lock and its unlock. -/
def Point.Inside : Point → Bool
  | .skipName | .copyName | .unlockName | .skipId | .unlockId | .readTime | .unlockTime
  | .countSize | .unlockSize | .total | .unlockTotal | .append _ | .unlockPart _
  | .unlockInsert | .push | .unlockPush => true
  | _ => false

variable {lib : TimeLib} {ι : Type} [DecidableEq ι]

/-- What thread `x.i` does next. -/
def next (x : Move ι) (s : Threads lib ι) (l : Local) : Op (Threads lib ι) Local :=
  let th := s.thread x.i
  let n := strlen th.query
  let query := queryArray th.query
  if s.aborted then .halt
  else
    match l.point with
    | .getString =>
      if n > 0 then .act s { l with point := .lockName, pos := 0, name := [] }
      else .act { s with aborted := true } l
    | .lockName => .lock { l with point := .skipName }
    | .skipName =>
      match skipTest query l.pos with
      | none => .halt
      | some true => .act s { l with pos := l.pos + 1 }
      | some false => .act s { l with point := .copyName, pos := l.pos + 1 }
    | .copyName =>
      match query[l.pos]? with
      | none => .halt
      | some c =>
        if nameByte c then
          -- `tmp` has room for `n+1` bytes
          if l.name.length ≤ n then .act s { l with name := l.name ++ [c], pos := l.pos + 1 }
          else .halt
        else .act s { l with point := .unlockName }
    | .unlockName => .unlock { l with point := .endName }
    | .endName => if l.name.length ≤ n then .act s { l with point := .lockId } else .halt
    | .lockId => .lock { l with point := .skipId }
    | .skipId =>
      match skipTest query l.pos with
      | none => .halt
      | some true => .act s { l with pos := l.pos + 1 }
      | some false => .act s { l with point := .unlockId, pos := l.pos + 1 }
    | .unlockId => .unlock { l with point := .setId }
    | .setId =>
      if NUL ∈ query.drop l.pos then
        .act (s.put x.i { th with
          pc := .named, tmp := buynode l.name (cstr (query.drop l.pos)) })
          { l with point := .askTime }
      else .halt
    | .askTime => .act s { l with point := .lockTime, clock := x.now }
    | .lockTime => .lock { l with point := .readTime }
    | .readTime => .act (s.step { x with now := l.clock }) { l with point := .unlockTime }
    | .unlockTime => .unlock { l with point := .scan }
    | .scan =>
      .act (s.step x) { l with
        point := if findScan th.tmp s.server.v ≠ s.server.v.length then .compare else .lockSize }
    | .lockSize => .lock { l with point := .countSize }
    | .countSize => .act (s.step x) { l with point := .unlockSize }
    | .unlockSize => .unlock { l with point := .notFound }
    | .notFound => .act (s.step x) { l with point := .compare }
    | .compare =>
      .act (s.step x) { l with point := if th.prev ≠ s.vEnd then .setEnd else .lockPush }
    | .setEnd => .act (s.step x) { l with point := .setLeave }
    | .setLeave => .act (s.step x) { l with point := .addTime }
    | .addTime => .act (s.step x) { l with point := .carry }
    | .carry =>
      match s.deref th.prev with
      | some r =>
        .act (s.step x) { l with point := if r.sec ≥ 60 then .carry else .lockTotal }
      | none => .act (s.step x) { l with point := .lockTotal }
    | .lockTotal => .lock { l with point := .total }
    | .total => .act s { l with point := .unlockTotal }
    | .unlockTotal => .unlock { l with point := .format .data }
    | .format k => .act s { l with point := .lockPart k }
    | .lockPart k => .lock { l with point := .append k }
    | .append k => .act s { l with point := .unlockPart k }
    | .unlockPart k => .unlock { l with point := k.after }
    | .lockInsert => .lock { l with point := .unlockInsert }
    | .unlockInsert => .unlock { l with point := .showing }
    | .lockPush => .lock { l with point := .push }
    | .push => .act (s.step x) { l with point := .unlockPush }
    | .unlockPush => .unlock { l with point := .showing }
    | .showing => .act s { l with point := .done }
    | .done => .halt

/-- `send_vector` as a program of threads. -/
def sendVectors (lib : TimeLib) (ι : Type) [DecidableEq ι] :
    Program (Move ι) ι (Threads lib ι) Local where
  who := Move.i
  next := next

/-- The server with one thread that enters `send_vector` for each query. -/
def init (lib : TimeLib) (tm : lib.Tm) (query : ι → Bytes) : State ι (Threads lib ι) Local :=
  State.init (Threads.init lib tm query) fun _ => Local.enter

/-- The state after the moves `moves`, a blocked thread's move doing nothing. -/
def run (lib : TimeLib) (tm : lib.Tm) (query : ι → Bytes) (moves : List (Move ι)) :
    State ι (Threads lib ι) Local :=
  (sendVectors lib ι).run (init lib tm query) moves

/-- Thread `i` has left `send_vector`. -/
def Finished (s : State ι (Threads lib ι) Local) (i : ι) : Prop := (s.own i).point = .done

/-- Thread `i` is still in `send_vector`, and no assertion has ended the process. -/
def Unfinished (s : State ι (Threads lib ι) Local) (i : ι) : Prop :=
  s.shared.aborted = false ∧ ¬ Finished s i

/-! ## The discipline of a thread -/

/-- **Every path through `send_vector` locks and unlocks in turns.** -/
theorem disciplined : (sendVectors lib ι).Disciplined fun l => l.point.Inside = true := by
  intro x s l
  show (next x s l).Disciplined _ l
  cases hab : s.aborted with
  | true =>
    rw [next, if_pos hab]
    trivial
  | false =>
    rw [next, if_neg (by simp [hab])]
    cases hp : l.point <;> dsimp only
    case getString => split_ifs <;> simp [Op.Disciplined, Point.Inside, hp]
    case skipName => split <;> simp [Op.Disciplined, Point.Inside, hp]
    case copyName =>
      split
      · trivial
      · split_ifs <;> simp [Op.Disciplined, Point.Inside, hp]
    case endName => split_ifs <;> simp [Op.Disciplined, Point.Inside, hp]
    case skipId => split <;> simp [Op.Disciplined, Point.Inside, hp]
    case setId => split_ifs <;> simp [Op.Disciplined, Point.Inside, hp]
    case scan => split_ifs <;> simp [Op.Disciplined, Point.Inside, hp]
    case compare => split_ifs <;> simp [Op.Disciplined, Point.Inside, hp]
    case carry =>
      split
      · split_ifs <;> simp [Op.Disciplined, Point.Inside, hp]
      · simp [Op.Disciplined, Point.Inside, hp]
    case unlockPart k => cases k <;> simp [Op.Disciplined, Point.Inside, Part.after, hp]
    all_goals simp [Op.Disciplined, Point.Inside, hp]

/-! ## Where `get_string` stands -/

/-- What the loops of `get_string` keep, on the query `q`: the pointer stays inside
the string and its `'\0'`, and what is still to be read makes up `getString q`. -/
def Place (q : Bytes) (l : Local) : Prop :=
  match l.point with
  | .getString => True
  | .lockName => q ≠ [] ∧ l.pos = 0 ∧ l.name = []
  | .skipName => l.pos < q.length ∧ l.name = [] ∧ skipEq (q.drop l.pos) = skipEq q
  | .copyName =>
    l.pos ≤ q.length ∧ l.name.length ≤ l.pos ∧
      l.name ++ (q.drop l.pos).takeWhile nameByte = (getString q).1 ∧
      (q.drop l.pos).dropWhile nameByte = (skipEq q).dropWhile nameByte ∧ q ≠ []
  | .unlockName | .endName | .lockId =>
    l.pos ≤ q.length ∧ l.name.length ≤ l.pos ∧ l.name = (getString q).1 ∧
      q.drop l.pos = (skipEq q).dropWhile nameByte ∧ q ≠ []
  | .skipId =>
    l.pos ≤ q.length ∧ l.name = (getString q).1 ∧
      cstr (skipEq (q.drop l.pos)) = (getString q).2 ∧ q ≠ []
  | .unlockId | .setId =>
    l.pos ≤ q.length + 1 ∧ l.name = (getString q).1 ∧ cstr (q.drop l.pos) = (getString q).2 ∧ q ≠ []
  | _ => True

/-- What a thread's place says of its program counter in `Threads`. -/
def Point.pc : Point → Pc
  | .getString | .lockName | .skipName | .copyName | .unlockName | .endName | .lockId | .skipId
  | .unlockId | .setId => .start
  | .askTime | .lockTime | .readTime => .named
  | .unlockTime | .scan => .timed
  | .lockSize | .countSize => .missed
  | .unlockSize | .notFound => .counted
  | .compare => .returned
  | .setEnd => .departing
  | .setLeave => .stamped
  | .addTime => .leaving
  | .carry => .carrying
  | .lockPush | .push => .arriving
  | _ => .finished

section GetString

variable {x : Move ι} {s s' : Threads lib ι} {l l' : Local} {q : Bytes}

theorem strlen_eq_length (hnul : NUL ∉ q) : strlen q = q.length := by
  rw [strlen, cstr_eq_self hnul]

/-- A turn of a loop that looks for a `'='`, in terms of `skipEq`. -/
theorem skip_turn {pos : ℕ} (hlen : q.length < QUERY_SIZE - 1) (hpos : pos ≤ q.length) :
    (skipTest (queryArray q) pos = some true ∧ pos + 1 < q.length ∧
        skipEq (q.drop pos) = skipEq (q.drop (pos + 1))) ∨
      (skipTest (queryArray q) pos = some false ∧ skipEq (q.drop pos) = q.drop (pos + 1)) := by
  rw [skipTest_queryArray (by omega), skipEq_drop]
  by_cases h : deref (q.drop pos) ≠ ch '=' ∧ deref (q.drop (pos + 1)) ≠ NUL
  · left
    rw [if_pos h]
    exact ⟨by simp [h.1, h.2], lt_length_of_deref h.2, rfl⟩
  · right
    rw [if_neg h]
    exact ⟨by rw [decide_eq_false h], rfl⟩

theorem next_place (hquery : (s.thread x.i).query = q) (hnul : NUL ∉ q)
    (hlen : q.length < QUERY_SIZE - 1) (h : Place q l)
    (hnext : (next x s l).After s s' l') : Place q l' := by
  cases hab : s.aborted with
  | true =>
    rw [next, if_pos hab] at hnext
    exact hnext.elim
  | false =>
    unfold Place at h
    rw [next, if_neg (by simp [hab]), hquery] at hnext
    cases hp : l.point <;> simp only [hp] at h hnext
    case getString =>
      split_ifs at hnext with hn
      · obtain ⟨-, rfl⟩ := hnext
        refine ⟨?_, rfl, rfl⟩
        rintro rfl
        exact absurd hn (by decide)
      · obtain ⟨-, rfl⟩ := hnext
        simp [Place, hp]
    case lockName =>
      obtain ⟨-, rfl⟩ := hnext
      obtain ⟨hne, hpos, hname⟩ := h
      show l.pos < q.length ∧ l.name = [] ∧ skipEq (q.drop l.pos) = skipEq q
      rw [hpos]
      exact ⟨List.length_pos_iff.mpr hne, hname, rfl⟩
    case skipName =>
      obtain ⟨hpos, hname, hskip⟩ := h
      rcases skip_turn hlen hpos.le with ⟨htest, hlt, hturn⟩ | ⟨htest, hturn⟩
      · rw [htest] at hnext
        obtain ⟨-, rfl⟩ := hnext
        simp only [Place]
        exact ⟨hlt, hname, hturn ▸ hskip⟩
      · rw [htest] at hnext
        obtain ⟨-, rfl⟩ := hnext
        simp only [Place]
        rw [← hturn, hskip, hname, getString_eq]
        exact ⟨hpos, by simp, by simp, rfl, List.length_pos_iff.mp (by omega)⟩
    case copyName =>
      obtain ⟨hpos, hname, htake, hdrop, hne⟩ := h
      rw [getElem?_queryArray (by omega)] at hnext
      dsimp only at hnext
      split_ifs at hnext with hbyte hroom
      · obtain ⟨-, rfl⟩ := hnext
        obtain ⟨hcons, hskip⟩ := takeWhile_drop hbyte
        have hlt : l.pos < q.length := by
          simp only [nameByte, decide_eq_true_eq] at hbyte
          exact lt_length_of_deref hbyte.2
        simp only [Place]
        refine ⟨hlt, by simpa using hname, ?_, hskip ▸ hdrop, hne⟩
        rw [← htake, hcons, List.append_assoc, List.singleton_append]
      · exact hnext.elim
      · obtain ⟨-, rfl⟩ := hnext
        obtain ⟨hnil, hsame⟩ := takeWhile_drop_of_not (Bool.eq_false_iff.mpr hbyte)
        simp only [Place]
        rw [hnil, List.append_nil] at htake
        exact ⟨hpos, hname, htake, hsame ▸ hdrop, hne⟩
    case unlockName =>
      obtain ⟨-, rfl⟩ := hnext
      exact h
    case endName =>
      split_ifs at hnext
      · obtain ⟨-, rfl⟩ := hnext
        exact h
      · exact hnext.elim
    case lockId =>
      obtain ⟨-, rfl⟩ := hnext
      obtain ⟨hpos, -, hname, hdrop, hne⟩ := h
      simp only [Place]
      rw [hdrop, getString_eq]
      exact ⟨hpos, hname, rfl, hne⟩
    case skipId =>
      obtain ⟨hpos, hname, hskip, hne⟩ := h
      rcases skip_turn hlen hpos with ⟨htest, hlt, hturn⟩ | ⟨htest, hturn⟩
      · rw [htest] at hnext
        obtain ⟨-, rfl⟩ := hnext
        simp only [Place]
        exact ⟨by omega, hname, hturn ▸ hskip, hne⟩
      · rw [htest] at hnext
        obtain ⟨-, rfl⟩ := hnext
        simp only [Place]
        exact ⟨by omega, hname, hturn ▸ hskip, hne⟩
    case unlockId =>
      obtain ⟨-, rfl⟩ := hnext
      exact h
    case setId =>
      split_ifs at hnext
      · obtain ⟨-, rfl⟩ := hnext
        trivial
      · exact hnext.elim
    case carry =>
      split at hnext
      · obtain ⟨-, rfl⟩ := hnext
        split_ifs <;> trivial
      · obtain ⟨-, rfl⟩ := hnext
        trivial
    case unlockPart k =>
      obtain ⟨-, rfl⟩ := hnext
      cases k <;> trivial
    case done => exact hnext.elim
    all_goals
      obtain ⟨-, rfl⟩ := hnext
    case scan => split_ifs <;> trivial
    case compare => split_ifs <;> trivial
    all_goals trivial

/-- **No read or write of `get_string` leaves its array.** -/
theorem next_ne_halt (hquery : (s.thread x.i).query = q) (hnul : NUL ∉ q)
    (hlen : q.length < QUERY_SIZE - 1) (h : Place q l) (hab : s.aborted = false)
    (hdone : l.point ≠ .done) : next x s l ≠ .halt := by
  have hstrlen := strlen_eq_length hnul
  unfold Place at h
  rw [next, if_neg (by simp [hab]), hquery, hstrlen]
  cases hp : l.point <;> simp only [hp] at h ⊢
  case getString => split_ifs <;> simp
  case skipName =>
    rcases skip_turn hlen h.1.le with ⟨htest, -⟩ | ⟨htest, -⟩ <;> simp [htest]
  case copyName =>
    obtain ⟨hpos, hname, -⟩ := h
    rw [getElem?_queryArray (by omega)]
    dsimp only
    rw [if_pos (show l.name.length ≤ q.length by omega)]
    split_ifs <;> simp
  case endName =>
    rw [if_pos (show l.name.length ≤ q.length by omega)]
    simp
  case skipId =>
    rcases skip_turn hlen h.1 with ⟨htest, -⟩ | ⟨htest, -⟩ <;> simp [htest]
  case setId =>
    rw [if_pos (NUL_mem_drop_queryArray (by omega) (by omega))]
    simp
  case carry => split <;> simp
  case done => exact absurd hp hdone
  all_goals simp

/-- What a move does to the shared state: nothing, or a step of `Threads`. -/
theorem next_shared (hquery : (s.thread x.i).query = q) (hnul : NUL ∉ q) (h : Place q l)
    (hpc : (s.thread x.i).pc = l.point.pc) (hnext : (next x s l).After s s' l') :
    ∃ ys : List (Move ι), s' = s.run ys ∧ (∀ y ∈ ys, y.i = x.i) ∧
      (s'.thread x.i).pc = l'.point.pc := by
  have quiet : s' = s → l'.point.pc = l.point.pc → ∃ ys : List (Move ι), s' = s.run ys ∧
      (∀ y ∈ ys, y.i = x.i) ∧ (s'.thread x.i).pc = l'.point.pc := by
    intro hs hp
    exact ⟨[], hs, by simp, by rw [hs, hpc, hp]⟩
  have moves : ∀ y : Move ι, y.i = x.i → s' = s.step y →
      ((s.step y).thread x.i).pc = l'.point.pc → ∃ ys : List (Move ι), s' = s.run ys ∧
        (∀ y ∈ ys, y.i = x.i) ∧ (s'.thread x.i).pc = l'.point.pc := by
    intro y hy hs hp
    exact ⟨[y], hs, by simpa using hy, hs ▸ hp⟩
  cases hab : s.aborted with
  | true =>
    rw [next, if_pos hab] at hnext
    exact hnext.elim
  | false =>
    unfold Place at h
    rw [next, if_neg (by simp [hab]), hquery] at hnext
    cases hp : l.point <;> simp only [hp] at h hnext hpc quiet
    case getString =>
      split_ifs at hnext with hn
      · obtain ⟨hs, rfl⟩ := hnext
        exact quiet hs rfl
      · obtain ⟨hs, rfl⟩ := hnext
        have hstep : s' = s.step x := by
          rw [Threads.step_of_alive x hab]
          simp only [Threads.act, hpc, Point.pc]
          rw [hquery, if_neg hn, hs]
        refine moves x rfl hstep ?_
        rw [← hstep, hs, hp]
        exact hpc
    case skipName =>
      split at hnext
      · exact hnext.elim
      all_goals
        obtain ⟨hs, rfl⟩ := hnext
        exact quiet hs (by simp [Point.pc])
    case skipId =>
      split at hnext
      · exact hnext.elim
      all_goals
        obtain ⟨hs, rfl⟩ := hnext
        exact quiet hs (by simp [Point.pc])
    case copyName =>
      split at hnext
      · exact hnext.elim
      · split_ifs at hnext
        · obtain ⟨hs, rfl⟩ := hnext
          exact quiet hs (by simp [Point.pc])
        · exact hnext.elim
        · obtain ⟨hs, rfl⟩ := hnext
          exact quiet hs rfl
    case endName =>
      split_ifs at hnext
      · obtain ⟨hs, rfl⟩ := hnext
        exact quiet hs rfl
      · exact hnext.elim
    case setId =>
      split_ifs at hnext
      · obtain ⟨hs, rfl⟩ := hnext
        obtain ⟨-, hname, hid, hne⟩ := h
        have hn : strlen q > 0 := by
          rw [strlen_eq_length hnul]
          exact List.length_pos_iff.mpr hne
        have hstep : s' = s.step x := by
          rw [Threads.step_of_alive x hab, hs, cstr_drop_queryArray, hname, hid]
          simp only [Threads.act, hpc, Point.pc]
          rw [hquery, if_pos hn]
        refine moves x rfl hstep ?_
        rw [← hstep, hs, Threads.put_thread_self]
        rfl
      · exact hnext.elim
    case readTime =>
      obtain ⟨hs, rfl⟩ := hnext
      refine moves { x with now := l.clock } rfl hs ?_
      rw [Threads.step_of_alive _ hab]
      simp [Threads.act, hpc, Point.pc]
    case scan =>
      obtain ⟨hs, rfl⟩ := hnext
      refine moves x rfl hs ?_
      rw [Threads.step_of_alive x hab]
      simp only [Threads.act, hpc, Point.pc]
      split_ifs <;> simp
    case compare =>
      obtain ⟨hs, rfl⟩ := hnext
      refine moves x rfl hs ?_
      rw [Threads.step_of_alive x hab]
      simp only [Threads.act, hpc, Point.pc, Threads.put_thread_self]
      split_ifs <;> rfl
    case carry =>
      split at hnext
      case h_1 r hr =>
        obtain ⟨hs, rfl⟩ := hnext
        refine moves x rfl hs ?_
        rw [Threads.step_of_alive x hab]
        simp only [Threads.act, hpc, Point.pc, hr]
        split_ifs
        · rw [Threads.store_thread, hpc]
          rfl
        · rw [Threads.put_thread_self]
      case h_2 hr =>
        obtain ⟨hs, rfl⟩ := hnext
        refine moves x rfl hs ?_
        rw [Threads.step_of_alive x hab]
        simp [Threads.act, hpc, Point.pc, hr]
    case unlockPart k =>
      obtain ⟨hs, rfl⟩ := hnext
      refine quiet hs ?_
      cases k <;> rfl
    case done => exact hnext.elim
    case countSize | notFound | setEnd | setLeave | addTime | push =>
      obtain ⟨hs, rfl⟩ := hnext
      refine moves x rfl hs ?_
      rw [Threads.step_of_alive x hab]
      simp [Threads.act, hpc, Point.pc]
    all_goals
      obtain ⟨hs, rfl⟩ := hnext
      exact quiet hs rfl

end GetString

/-! ## Every interleaving -/

/-- What every run keeps. -/
structure Valid (query : ι → Bytes) (s : State ι (Threads lib ι) Local) : Prop where
  query_eq : ∀ i, (s.shared.thread i).query = query i
  place : ∀ i, Place (query i) (s.own i)
  pc_eq : ∀ i, (s.shared.thread i).pc = (s.own i).point.pc

omit [DecidableEq ι] in
theorem valid_init (tm : lib.Tm) (query : ι → Bytes) : Valid query (init lib tm query) where
  query_eq _ := rfl
  place _ := trivial
  pc_eq _ := rfl

variable {query : ι → Bytes}

/-- A step keeps the invariant, and is a run of `Threads`. -/
theorem Valid.step {s s' : State ι (Threads lib ι) Local} (h : Valid query s)
    (hnul : ∀ i, NUL ∉ query i) (hlen : ∀ i, (query i).length < QUERY_SIZE - 1) {x : Move ι}
    (hstep : (sendVectors lib ι).step s x = some s') :
    Valid query s' ∧ ∃ ys, s'.shared = s.shared.run ys := by
  obtain ⟨own, hafter, hown⟩ := Program.step_after hstep
  have hplace := next_place (h.query_eq x.i) (hnul x.i) (hlen x.i) (h.place x.i) hafter
  obtain ⟨ys, hshared, hys, hpc⟩ :=
    next_shared (h.query_eq x.i) (hnul x.i) (h.place x.i) (h.pc_eq x.i) hafter
  have hself : s'.own x.i = own := by
    rw [hown]
    exact Function.update_self ..
  have hother : ∀ {i}, i ≠ x.i → s'.own i = s.own i := by
    intro i hi
    rw [hown]
    exact Function.update_of_ne hi ..
  refine ⟨⟨fun i => ?_, fun i => ?_, fun i => ?_⟩, ys, hshared⟩
  · rw [hshared, Threads.run_query, h.query_eq]
  · by_cases hi : i = x.i
    · subst hi
      rw [hself]
      exact hplace
    · rw [hother hi]
      exact h.place i
  · by_cases hi : i = x.i
    · subst hi
      rw [hself]
      exact hpc
    · rw [hshared, Threads.run_thread_of_ne _ hi hys, hother hi]
      exact h.pc_eq i

theorem valid_run (tm : lib.Tm) (hnul : ∀ i, NUL ∉ query i)
    (hlen : ∀ i, (query i).length < QUERY_SIZE - 1) (moves : List (Move ι)) :
    Valid query (run lib tm query moves) :=
  Program.inv_run (Valid query) (fun _ _ _ h hstep => (h.step hnul hlen hstep).1)
    (valid_init tm query) moves

/-- **The statement-by-statement model refines `Threads`**: whatever the threads do,
the shared state they reach is one that a run of `Threads` reaches. -/
theorem shared_run (tm : lib.Tm) (hnul : ∀ i, NUL ∉ query i)
    (hlen : ∀ i, (query i).length < QUERY_SIZE - 1) (moves : List (Move ι)) :
    ∃ ys, (run lib tm query moves).shared = (Threads.init lib tm query).run ys := by
  have hrun := Program.inv_run (P := sendVectors lib ι)
    (fun s => Valid query s ∧ ∃ ys, s.shared = (Threads.init lib tm query).run ys)
    (fun s x s' h hstep => ?_) ⟨valid_init tm query, [], rfl⟩ moves
  · exact hrun.2
  · obtain ⟨hvalid, ys, hys⟩ := h
    obtain ⟨hvalid', zs, hzs⟩ := hvalid.step hnul hlen hstep
    refine ⟨hvalid', ys ++ zs, ?_⟩
    rw [hzs, hys, Threads.run, Threads.run, Threads.run, List.foldl_append]

theorem exclusive (tm : lib.Tm) (query : ι → Bytes) (moves : List (Move ι)) :
    Exclusive (fun l : Local => l.point.Inside = true) (run lib tm query moves) :=
  exclusive_run disciplined (exclusive_init _ fun _ => by simp [Local.enter, Point.Inside]) moves

/-- **The locks of `send_vector`**, for every number of threads and every
interleaving: at most one thread holds the mutex, none waits for a mutex it holds,
none leaves with it, and as long as one is unfinished, one can step. -/
theorem lock_discipline (lib : TimeLib) (tm : lib.Tm) (query : ι → Bytes)
    (hnul : ∀ i, NUL ∉ query i) (hlen : ∀ i, (query i).length < QUERY_SIZE - 1)
    (moves : List (Move ι)) :
    (∀ i j, (run lib tm query moves).held i = true →
        (run lib tm query moves).held j = true → i = j) ∧
      (∀ i, (run lib tm query moves).held i = true →
        ¬ (sendVectors lib ι).Waits (run lib tm query moves) i) ∧
      (∀ i, Finished (run lib tm query moves) i → (run lib tm query moves).held i = false) ∧
      (∀ i, Unfinished (run lib tm query moves) i →
        ∃ j, ∀ x : Move ι, x.i = j →
          ((sendVectors lib ι).step (run lib tm query moves) x).isSome = true) := by
  have hvalid := valid_run tm hnul hlen moves
  have hex := exclusive tm query moves
  generalize run lib tm query moves = s at hvalid hex
  have hhalt : ∀ j (x : Move ι), x.i = j → s.shared.aborted = false → (s.own j).point ≠ .done →
      next x s.shared (s.own j) ≠ .halt := by
    rintro _ x rfl hab hdone
    exact next_ne_halt (hvalid.query_eq _) (hnul _) (hlen _) (hvalid.place _) hab hdone
  refine ⟨fun i j hi hj => ?_, fun i hi => ?_, fun i hi => ?_, fun i hi => ?_⟩
  · exact hex.unique i j ((hex.held i).mp hi) ((hex.held j).mp hj)
  · exact hex.not_waits disciplined hi
  · rw [Bool.eq_false_iff, ne_eq, hex.held, hi]
    simp [Point.Inside]
  · obtain ⟨hab, hdone⟩ := hi
    refine hex.progress disciplined (fun x hx => hhalt i x hx hab hdone) fun j x hx hj => ?_
    refine hhalt j x hx hab ?_
    intro hp
    rw [hp] at hj
    exact absurd hj (by decide)

/-- Two requests, the first inside its first section. -/
theorem lock_discipline_example :
    let query : Bool → Bytes := fun i => if i then bytes "name=bob&id=2" else bytes "name=ann&id=1"
    let s := run TimeLib.utc (0 : ℤ) query [⟨false, 0, false⟩, ⟨false, 0, false⟩]
    s.held false = true ∧ s.held true = false ∧
      ∃ j, ∀ x : Move Bool, x.i = j → ((sendVectors TimeLib.utc Bool).step s x).isSome = true := by
  intro query s
  have hnul : ∀ i, NUL ∉ query i := by decide
  have hlen : ∀ i, (query i).length < QUERY_SIZE - 1 := by decide
  have hrun := lock_discipline TimeLib.utc (0 : ℤ) query hnul hlen
    [⟨false, 0, false⟩, ⟨false, 0, false⟩]
  have hunfinished : Unfinished s true := by
    constructor
    · decide +kernel
    · unfold Finished
      decide +kernel
  exact ⟨by decide +kernel, by decide +kernel, hrun.2.2.2 true hunfinished⟩

end FacePerception.Server.Locks
