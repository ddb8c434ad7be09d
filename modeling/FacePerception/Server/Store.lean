import FacePerception.Lib.CString
import FacePerception.Lib.KeyedLog

/-!
# The check-in store of `server_http`

Models of `user_node` and of the members of `server_http` that `send_vector`
uses (`server/server_http.h`, lines 9–131 and 539–605), for one call at a time.

An iterator of `v` is the position it stands at; `v.end()` is the length of `v`.
`localtime`, `mktime` and `strftime` depend on the time zone and the locale, so
they are a parameter (`TimeLib`); the code relies on `mktime` undoing
`localtime`. The lines written to `cout` are left out.

Results:
* `workTimeLoop_clocks`: the carry loop of `calculat_work_time` keeps the time
  the counters stand for and brings them into range.
* `sendVector_eq`: a call of `send_vector` with a non-empty query is one event of
  the log kept by (name, id).
-/

namespace FacePerception.Server

open CString CNum

/-! ## `user_node` -/

/-- `struct user_node` (lines 9–30). `data` is a `double` that only ever holds
non-negative integers. -/
structure UserNode where
  name : Bytes
  id : Bytes
  arriveTime : Bytes
  leaveTime : Bytes
  sec : ℤ
  min : ℤ
  hour : ℤ
  data : ℕ
  startTime : ℤ
  endTime : ℤ
deriving DecidableEq

/-- `buynode` (lines 699–704) and the constructor it calls (lines 23–29). -/
def buynode (name id : Bytes) (first last : Bytes := []) (d : ℕ := 0) : UserNode where
  name := name
  id := id
  arriveTime := first
  leaveTime := last
  sec := 0
  min := 0
  hour := 0
  data := d
  startTime := 0
  endTime := 0

/-- The pair `find_id` compares. -/
def UserNode.key (r : UserNode) : Bytes × Bytes := (r.name, r.id)

/-- The seconds a record's counters stand for; a day has eight hours. -/
def UserNode.total (r : UserNode) : ℤ := r.sec + 60 * r.min + 3600 * r.hour + 28800 * r.data

/-! ## `calculat_work_time` -/

/-- Lines 120–124: sixty minutes make an hour. -/
def carryMin (cur : UserNode) : UserNode :=
  if cur.min ≥ 60 then { cur with hour := cur.hour + 1, min := cur.min - 60 } else cur

/-- Lines 125–129: eight hours make a day. -/
def carryHour (cur : UserNode) : UserNode :=
  if cur.hour ≥ 8 then { cur with data := roundDouble (cur.data + 1), hour := cur.hour - 8 }
  else cur

/-- The body of the `while(cur->sec >=60)` loop (lines 119–130). -/
def workTimeTurn (cur : UserNode) : UserNode :=
  let cur := carryHour (carryMin { cur with min := cur.min + 1 })
  { cur with sec := cur.sec - 60 }

theorem workTimeTurn_sec (cur : UserNode) : (workTimeTurn cur).sec = cur.sec - 60 := by
  simp only [workTimeTurn, carryHour, carryMin]
  split_ifs <;> rfl

/-- The `while(cur->sec >=60)` loop (lines 117–131). -/
def workTimeLoop (cur : UserNode) : UserNode :=
  if cur.sec ≥ 60 then workTimeLoop (workTimeTurn cur) else cur
termination_by cur.sec.toNat
decreasing_by rw [workTimeTurn_sec]; omega

/-- `calculat_work_time` (lines 113–132). `cur->sec+=difftime(..)` adds in
`double` and converts back to `int`. -/
def calculatWorkTime (cur : UserNode) : UserNode :=
  workTimeLoop { cur with sec := doubleToInt (cur.sec + (cur.endTime - cur.startTime)) }

/-- The counters of `r` are in range, `sec` apart; `k` days have been added to `data`,
which was `d`, and with these days the counters stand for `T` seconds. -/
structure Carried (d k : ℕ) (T : ℤ) (r : UserNode) : Prop where
  sec_nonneg : 0 ≤ r.sec
  min_nonneg : 0 ≤ r.min
  min_lt : r.min < 60
  hour_nonneg : 0 ≤ r.hour
  hour_lt : r.hour < 8
  data_eq : r.data = countUp d k
  sum_eq : r.sec + 60 * r.min + 3600 * r.hour + 28800 * (k : ℤ) = T

theorem workTimeTurn_carried {r : UserNode} {d k : ℕ} {T : ℤ} (h : Carried d k T r)
    (hs : 60 ≤ r.sec) : ∃ k', Carried d k' T (workTimeTurn r) := by
  obtain ⟨h1, h2, h3, h4, h5, h6, h7⟩ := h
  simp only [workTimeTurn, carryMin, carryHour]
  by_cases hmin : r.min + 1 ≥ 60
  · rw [if_pos hmin]
    by_cases hhour : r.hour + 1 ≥ 8
    · rw [if_pos hhour]
      have hdata : roundDouble (r.data + 1) = countUp d (k + 1) := by rw [countUp_succ, h6]
      refine ⟨k + 1, ?_, ?_, ?_, ?_, ?_, hdata, ?_⟩ <;> dsimp only <;> omega
    · rw [if_neg hhour]
      refine ⟨k, ?_, ?_, ?_, ?_, ?_, h6, ?_⟩ <;> dsimp only <;> omega
  · rw [if_neg hmin, if_neg (by dsimp only; omega)]
    refine ⟨k, ?_, ?_, ?_, h4, h5, h6, ?_⟩ <;> dsimp only <;> omega

/-- The carry loop keeps the time the counters stand for. -/
theorem workTimeLoop_carried {r : UserNode} {d k : ℕ} {T : ℤ} (h : Carried d k T r) :
    ∃ k', Carried d k' T (workTimeLoop r) ∧ (workTimeLoop r).sec < 60 := by
  induction r using workTimeLoop.induct generalizing k with
  | case1 r hs ih =>
    rw [workTimeLoop, if_pos hs]
    obtain ⟨k', h'⟩ := workTimeTurn_carried h hs
    exact ih h'
  | case2 r hs =>
    rw [workTimeLoop, if_neg hs]
    exact ⟨k, h, by omega⟩

/-- The counters of `r` are in range, `sec` apart, and stand for `T` seconds;
`D` counts the days, of which `data` as a `double` cannot hold more than `2^53`. -/
structure Clocks (r : UserNode) (D : ℕ) (T : ℤ) : Prop where
  sec_nonneg : 0 ≤ r.sec
  min_nonneg : 0 ≤ r.min
  min_lt : r.min < 60
  hour_nonneg : 0 ≤ r.hour
  hour_lt : r.hour < 8
  data_eq : r.data = min D (2 ^ 53)
  sum_eq : r.sec + 60 * r.min + 3600 * r.hour + 28800 * (D : ℤ) = T

/-- For counters that have counted up from 0. -/
theorem workTimeLoop_clocks {r : UserNode} {D : ℕ} {T : ℤ} (h : Clocks r D T) :
    ∃ D', Clocks (workTimeLoop r) D' T ∧ (workTimeLoop r).sec < 60 := by
  obtain ⟨h1, h2, h3, h4, h5, h6, h7⟩ := h
  have hstart : Carried r.data 0 (T - 28800 * D) r := by
    refine ⟨h1, h2, h3, h4, h5, rfl, ?_⟩
    push_cast
    omega
  obtain ⟨k, hend, hsec⟩ := workTimeLoop_carried hstart
  have hdata : (workTimeLoop r).data = min (D + k) (2 ^ 53) := by
    rw [hend.data_eq, h6, countUp_of_le (min_le_right _ _)]
    omega
  have hsum := hend.sum_eq
  refine ⟨D + k, ⟨hend.sec_nonneg, hend.min_nonneg, hend.min_lt, hend.hour_nonneg, hend.hour_lt,
    hdata, ?_⟩, hsec⟩
  push_cast
  omega

/-- The carry loop changes the counters only. -/
theorem workTimeLoop_frame (r : UserNode) :
    ∃ s m h d, workTimeLoop r = { r with sec := s, min := m, hour := h, data := d } := by
  induction r using workTimeLoop.induct with
  | case1 r hs ih =>
    obtain ⟨s, m, h, d, ih⟩ := ih
    rw [workTimeLoop, if_pos hs, ih]
    refine ⟨s, m, h, d, ?_⟩
    simp only [workTimeTurn, carryMin, carryHour]
    split_ifs <;> rfl
  | case2 r hs =>
    rw [workTimeLoop, if_neg hs]
    exact ⟨r.sec, r.min, r.hour, r.data, rfl⟩

theorem calculatWorkTime_frame (r : UserNode) :
    ∃ s m h d, calculatWorkTime r = { r with sec := s, min := m, hour := h, data := d } := by
  obtain ⟨s, m, h, d, heq⟩ :=
    workTimeLoop_frame { r with sec := doubleToInt (r.sec + (r.endTime - r.startTime)) }
  exact ⟨s, m, h, d, heq⟩

/-! ## `get_string` -/

/-- `while(*query++ !='=' && *query !='\0')` (lines 64 and 73): where `query`
points when the loop ends. -/
def skipEq : Bytes → Bytes
  | [] => []
  | c :: query => if c ≠ ch '=' ∧ deref query ≠ NUL then skipEq query else query

/-- `get_string` (lines 55–79) on a query that passes its assertion: the name and
the id. `query` points into a zero-filled array. -/
def getString (query : Bytes) : Bytes × Bytes :=
  let query := skipEq query
  let name := query.takeWhile fun c => c ≠ ch '&' ∧ c ≠ NUL
  let query := query.dropWhile fun c => c ≠ ch '&' ∧ c ≠ NUL
  let query := skipEq query
  (name, cstr query)

/-! ## `get_time` -/

/-- The functions of `<time.h>` that `get_time` and `send_vector` call. `Tm` is
`struct tm`, and `strftime` renders it with the format of line 89. -/
structure TimeLib where
  Tm : Type
  localtime : ℤ → Tm
  mktime : Tm → ℤ
  strftime : Tm → Bytes
  mktime_localtime : ∀ t, mktime (localtime t) = t

/-- What `get_time` (lines 82–92) returns when `time(NULL)` is `t`. -/
def TimeLib.getTime (lib : TimeLib) (t : ℤ) : Bytes := lib.strftime (lib.localtime t)

/-- `n` in decimal, padded with zeros to at least two digits (`%m`, `%d`, `%H`,
`%M` and `%S`). -/
def twoDigits (n : ℕ) : Bytes := if n < 10 then ch '0' :: decimal n else decimal n

/-- `%A` in the C locale; day 0 is a Thursday. -/
def weekday (day : ℤ) : Bytes :=
  match (day + 4) % 7 with
  | 0 => bytes "Sunday"
  | 1 => bytes "Monday"
  | 2 => bytes "Tuesday"
  | 3 => bytes "Wednesday"
  | 4 => bytes "Thursday"
  | 5 => bytes "Friday"
  | _ => bytes "Saturday"

/-- `%Y.%m.%d` of the day `day` days after 1970.01.01, by counting 400-year eras
of years that begin in March. -/
def civilDate (day : ℤ) : Bytes :=
  let z := day + 719468
  let era := z / 146097
  let doe := (z % 146097).toNat
  let yoe := (doe - doe / 1460 + doe / 36524 - doe / 146096) / 365
  let doy := doe - (365 * yoe + yoe / 4 - yoe / 100)
  let mp := (5 * doy + 2) / 153
  let month := if mp < 10 then mp + 3 else mp - 9
  let year := (era * 400 + yoe + if month ≤ 2 then 1 else 0).toNat
  decimal year ++ ch '.' :: twoDigits month ++ ch '.' :: twoDigits (doy - (153 * mp + 2) / 5 + 1)

/-- `strftime` with the format `"%Y.%m.%d %X %A"` of the reading `t`, in UTC and
the C locale. -/
def utcText (t : ℤ) : Bytes :=
  let sec := (t % 86400).toNat
  civilDate (t / 86400) ++ ch ' ' :: twoDigits (sec / 3600) ++ ch ':' ::
    twoDigits (sec / 60 % 60) ++ ch ':' :: twoDigits (sec % 60) ++ ch ' ' :: weekday (t / 86400)

/-- The library of a server running in UTC and the C locale; a `struct tm` stands
for the reading it was broken down from. -/
def TimeLib.utc : TimeLib where
  Tm := ℤ
  localtime := id
  mktime := id
  strftime := utcText
  mktime_localtime _ := rfl

example : TimeLib.utc.getTime 1464549029 = bytes "2016.05.29 19:10:29 Sunday" := by decide +kernel

/-! ## `find_id` and `send_vector` -/

/-- The members of `server_http` (lines 34–36). -/
structure ServerHttp where
  size : ℕ
  v : List UserNode
deriving DecidableEq

/-- `server_class` when the server starts. -/
def ServerHttp.init : ServerHttp where
  size := 0
  v := []

/-- The scan of `find_id` (lines 96–106): the first record with the id and the
name of `head`, or the end of `v`. -/
def findScan (head : UserNode) (v : List UserNode) : ℕ :=
  v.findIdx fun cur => cur.id = head.id ∧ cur.name = head.name

/-- `find_id` (lines 94–111). A miss counts the record the caller will add. -/
def findId (head : UserNode) (s : ServerHttp) : ℕ × ServerHttp :=
  let cur := findScan head s.v
  if cur ≠ s.v.length then (cur, s) else (s.v.length, { s with size := s.size + 1 })

variable (lib : TimeLib)

/-- The record as `send_vector` stores it on arrival (lines 596–598). -/
def arrive (T : lib.Tm) (localTime : Bytes) (tmp : UserNode) : UserNode :=
  { tmp with startTime := lib.mktime T, arriveTime := localTime }

/-- The record after a departure (lines 564–570). -/
def depart (T : lib.Tm) (localTime : Bytes) (prev : UserNode) : UserNode :=
  calculatWorkTime { prev with endTime := lib.mktime T, leaveTime := localTime }

/-- One call of `send_vector`: its query and what `time(NULL)` answers. -/
structure Scan where
  query : Bytes
  clock : ℤ

/-- The (name, id) pair a scan is about. -/
def Scan.key (c : Scan) : Bytes × Bytes := getString c.query

/-- `send_vector` (lines 539–605). `none`: the assertion `n>0` of `get_string`
(line 58) fails. -/
def sendVector (c : Scan) (s : ServerHttp) : Option ServerHttp :=
  if strlen c.query > 0 then
    let nameId := getString c.query
    let T := lib.localtime c.clock
    let localTime := lib.getTime c.clock
    let tmp := buynode nameId.1 nameId.2
    let prev := (findId tmp s).1
    let s := (findId tmp s).2
    if prev ≠ s.v.length then some { s with v := s.v.modify prev (depart lib T localTime) }
    else some { s with v := s.v ++ [arrive lib T localTime tmp] }
  else none

/-- Calls of `send_vector` one after another on the initial `server_class`. -/
def sendVectors (calls : List Scan) : Option ServerHttp :=
  calls.foldlM (fun s c => sendVector lib c s) ServerHttp.init

/-! ## `send_vector` as a log kept by (name, id) -/

theorem depart_frame (T : lib.Tm) (localTime : Bytes) (r : UserNode) :
    ∃ s m h d, depart lib T localTime r =
      { r with
        sec := s, min := m, hour := h, data := d,
        endTime := lib.mktime T, leaveTime := localTime } := by
  obtain ⟨s, m, h, d, heq⟩ :=
    calculatWorkTime_frame { r with endTime := lib.mktime T, leaveTime := localTime }
  exact ⟨s, m, h, d, heq⟩

theorem depart_key (T : lib.Tm) (localTime : Bytes) (r : UserNode) :
    (depart lib T localTime r).key = r.key := by
  obtain ⟨s, m, h, d, heq⟩ := depart_frame lib T localTime r
  rw [heq]
  rfl

/-- What the store is for: one record per (name, id), made at the first scan of
the pair and updated at every later one. -/
def attendance : KeyedLog (Bytes × Bytes) Scan UserNode where
  key := Scan.key
  keyOf := UserNode.key
  create c :=
    arrive lib (lib.localtime c.clock) (lib.getTime c.clock) (buynode c.key.1 c.key.2)
  update r c := depart lib (lib.localtime c.clock) (lib.getTime c.clock) r
  keyOf_create _ := rfl
  keyOf_update r _ := depart_key lib _ _ r

theorem findScan_eq (c : Scan) (v : List UserNode) :
    findScan (buynode c.key.1 c.key.2) v = v.findIdx fun r => r.key = c.key := by
  simp only [findScan, buynode, UserNode.key, Prod.ext_iff, and_comm]

theorem findId_of_hit {head : UserNode} {s : ServerHttp}
    (h : findScan head s.v < s.v.length) : findId head s = (findScan head s.v, s) := by
  rw [findId, if_pos (by omega)]

theorem findId_of_miss {head : UserNode} {s : ServerHttp}
    (h : findScan head s.v = s.v.length) :
    findId head s = (s.v.length, { s with size := s.size + 1 }) := by
  rw [findId, if_neg (by simp [h])]

/-- A call of `send_vector` with a non-empty query is one event of the log; `size`
counts the records it adds. -/
theorem sendVector_eq (c : Scan) (s : ServerHttp) (hq : strlen c.query > 0) :
    sendVector lib c s = some
      { size := if c.key ∈ s.v.map UserNode.key then s.size else s.size + 1,
        v := (attendance lib).upsert s.v c } := by
  have hscan : findScan (buynode (getString c.query).1 (getString c.query).2) s.v =
      s.v.findIdx fun r => r.key = c.key := findScan_eq c s.v
  have hmem : s.v.findIdx (fun r => r.key = c.key) < s.v.length ↔
      c.key ∈ s.v.map UserNode.key := by
    rw [List.findIdx_lt_length]
    simp [eq_comm]
  have hupsert : (attendance lib).upsert s.v c = if s.v.findIdx (fun r => r.key = c.key) <
      s.v.length then _ else _ := (attendance lib).upsert_eq_modify s.v c
  rw [hupsert, sendVector, if_pos hq]
  dsimp only
  by_cases hfound : s.v.findIdx (fun r => r.key = c.key) < s.v.length
  · rw [if_pos hfound, if_pos (hmem.mp hfound), findId_of_hit (hscan ▸ hfound), hscan]
    exact if_pos hfound.ne
  · have hend : s.v.findIdx (fun r => r.key = c.key) = s.v.length := by
      have : s.v.findIdx (fun r => r.key = c.key) ≤ s.v.length := List.findIdx_le_length
      omega
    rw [if_neg hfound, if_neg (fun h => hfound (hmem.mpr h)), findId_of_miss (hscan ▸ hend)]
    exact if_neg (by simp)

end FacePerception.Server
