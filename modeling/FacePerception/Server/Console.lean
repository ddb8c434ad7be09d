import FacePerception.Lib.Cout
import FacePerception.Lib.TextTable
import FacePerception.Server.Duration
import FacePerception.Server.Sessions

/-!
# What the operator sees

`send_vector` writes what it does to `cout`, and at its end `show` prints the records as a
table (`server/server_http.h`, lines 41–53, 55–79, 181–195 and 539–605). The lines that
`insert` would need are commented out, so that this table is all the server has to show for
its records. What the rest of `Accept` prints is left out.

Results:
* `readTable_showText_iff`: when the table can be read back.
* `operator_reads`: after any connections, what the last table says is what the check-ins
  make of it, iff no name and no id has a tab or a newline in it.
* `timeText_determines_iff`: the time that a row shows tells the time of the record iff it is
  less than a million days.
-/

namespace FacePerception.Server

open CString TextTable

/-! ## What is printed -/

def TAB : UInt8 := 9

/-- `cout<<text<<endl`. -/
def endl (text : Bytes) : Bytes := text ++ [LF]

/-- `"天"` in UTF-8, as in the source. -/
def dayMark : Bytes := [0xE5, 0xA4, 0xA9]

/-- `"时"`. -/
def hourMark : Bytes := [0xE6, 0x97, 0xB6]

/-- `"分"`. -/
def minMark : Bytes := [0xE5, 0x88, 0x86]

/-- `"秒"`. -/
def secMark : Bytes := [0xE7, 0xA7, 0x92]

/-- `"姓名\t编号\t签到时间\t\t\t离开时间\t\t\t计时间"` (line 43). -/
def showHeader : Bytes :=
  [0xE5, 0xA7, 0x93, 0xE5, 0x90, 0x8D, TAB, 0xE7, 0xBC, 0x96, 0xE5, 0x8F, 0xB7, TAB,
    0xE7, 0xAD, 0xBE, 0xE5, 0x88, 0xB0, 0xE6, 0x97, 0xB6, 0xE9, 0x97, 0xB4, TAB, TAB, TAB,
    0xE7, 0xA6, 0xBB, 0xE5, 0xBC, 0x80, 0xE6, 0x97, 0xB6, 0xE9, 0x97, 0xB4, TAB, TAB, TAB,
    0xE8, 0xAE, 0xA1, 0xE6, 0x97, 0xB6, 0xE9, 0x97, 0xB4]

/-- The counters as `show` prints them (lines 49–50). -/
def timeText (cur : UserNode) : Bytes :=
  coutDouble cur.data ++ (dayMark ++ (decimalInt cur.hour ++ (hourMark ++
    (decimalInt cur.min ++ (minMark ++ (decimalInt cur.sec ++ secMark))))))

/-- A turn of the loop of `show` (lines 47–50). -/
def rowText (cur : UserNode) : Bytes :=
  endl (cur.name ++ [TAB] ++ cur.id ++ [TAB] ++ cur.arriveTime ++ [TAB] ++ cur.leaveTime ++
    [TAB] ++ timeText cur)

/-- `show` (lines 41–53). -/
def showText (v : List UserNode) : Bytes := endl showHeader ++ v.flatMap rowText

/-- `get_total_string` (lines 181–195). -/
def getTotalString (cur : UserNode) : Bytes :=
  let flag := bytes " "
  cur.name ++ flag ++ cur.id ++ flag ++ cur.arriveTime ++ flag ++ cur.leaveTime ++ flag

/-- Lines 571–581. -/
def totalText (prev : UserNode) : Bytes :=
  endl (bytes "**************") ++
    endl (bytes "total :" ++ getTotalString prev ++ intToString prev.counters) ++
    endl (bytes "**************")

/-- What `get_string` prints behind its assertion (line 77). -/
def nameText (nameId : Bytes × Bytes) : Bytes :=
  endl (bytes "name:" ++ nameId.1 ++ bytes "  id:" ++ nameId.2)

/-- What a call of `send_vector` prints (lines 539–605). Where the assertion of `get_string`
fails, it is the last. -/
def sendVectorText (lib : TimeLib) (c : Scan) (s : ServerHttp) : Bytes :=
  let nameId := getString c.query
  let prev := (findId (buynode nameId.1 nameId.2) s).1
  endl (bytes "send vector begin :" ++ cstr c.query) ++
    endl (bytes "len is :" ++ decimal (strlen c.query)) ++
    endl (bytes "get string begin :" ++ cstr c.query) ++
    match sendVector lib c s with
    | none => []
    | some s' =>
      nameText nameId ++ endl (bytes "get struct tm will begin") ++
        (if prev ≠ s.v.length then (s'.v[prev]?.map totalText).getD [] else []) ++ showText s'.v

/-- What calls one after another print, from the store `s`. -/
def printed (lib : TimeLib) : List Scan → ServerHttp → Bytes
  | [], _ => []
  | c :: calls, s =>
    sendVectorText lib c s ++ ((sendVector lib c s).map (printed lib calls)).getD []

/-! ## Reading the table -/

/-- The rows of a table, behind the line of its headings. -/
def readTable (text : Bytes) : List (List Bytes) := (parse TAB LF text).tail

/-- What a row says. -/
def cells (r : UserNode) : List Bytes := [r.name, r.id, r.arriveTime, r.leaveTime, timeText r]

/-- Neither a tab nor a newline is in `f`. -/
def Plain (f : Bytes) : Prop := TAB ∉ f ∧ LF ∉ f

theorem showText_eq (v : List UserNode) :
    showText v = showHeader ++ LF :: render TAB LF (v.map cells) := by
  have hrow : rowText = fun r => line TAB (cells r) ++ [LF] := by
    funext r
    simp [rowText, endl, line, cells, List.intercalate, List.intersperse]
  rw [showText, endl, List.append_assoc, List.singleton_append, render, List.flatMap_map,
    hrow]

theorem plain_timeText (r : UserNode) : Plain (timeText r) := by
  have hnotMem : ∀ c, isDigit c = false → c ≠ ch '.' → c ∉ bytes "e+" → c ≠ ch '-' →
      c ∉ dayMark ++ hourMark ++ minMark ++ secMark → c ∉ timeText r := by
    intro c hdigit hdot he hminus hmarks
    simp only [List.mem_append, not_or] at hmarks
    obtain ⟨⟨⟨hday, hhour⟩, hmin⟩, hsec⟩ := hmarks
    simp only [timeText, List.mem_append, notMem_coutDouble hdigit hdot he,
      notMem_decimalInt hdigit hminus, hday, hhour, hmin, hsec, or_self, not_false_eq_true]
  exact ⟨hnotMem TAB (by decide) (by decide) (by decide) (by decide) (by decide),
    hnotMem LF (by decide) (by decide) (by decide) (by decide) (by decide)⟩

/-- **The table can be read back** iff no name and no id has a tab or a newline in it, where
the times have none. -/
theorem readTable_showText_iff {v : List UserNode}
    (htimes : ∀ r ∈ v, Plain r.arriveTime ∧ Plain r.leaveTime) :
    readTable (showText v) = v.map cells ↔ ∀ r ∈ v, Plain r.name ∧ Plain r.id := by
  have hheader : LF ∉ showHeader := by decide
  have hne : ∀ row ∈ v.map cells, row ≠ [] := by
    intro row hrow
    obtain ⟨r, -, rfl⟩ := List.mem_map.mp hrow
    exact List.cons_ne_nil _ _
  have hparse : readTable (showText v) = parse TAB LF (render TAB LF (v.map cells)) := by
    rw [readTable, showText_eq, parse, lines_append hheader, List.map_cons, List.tail_cons, parse]
  rw [hparse, parse_render_iff (by decide) hne]
  constructor
  · rintro ⟨htab, hlf⟩ r hr
    have htab := htab _ (List.mem_map_of_mem hr)
    have hlf := hlf _ (List.mem_map_of_mem hr)
    exact ⟨⟨htab _ (by simp [cells]), hlf _ (by simp [cells])⟩,
      ⟨htab _ (by simp [cells]), hlf _ (by simp [cells])⟩⟩
  · intro h
    have hplain : ∀ row ∈ v.map cells, ∀ f ∈ row, Plain f := by
      intro row hrow f hf
      obtain ⟨r, hr, rfl⟩ := List.mem_map.mp hrow
      simp only [cells, List.mem_cons, List.not_mem_nil, or_false] at hf
      rcases hf with rfl | rfl | rfl | rfl | rfl
      · exact (h r hr).1
      · exact (h r hr).2
      · exact (htimes r hr).1
      · exact (htimes r hr).2
      · exact plain_timeText r
    exact ⟨fun row hrow f hf => (hplain row hrow f hf).1,
      fun row hrow f hf => (hplain row hrow f hf).2⟩

/-! ## The last table -/

theorem showText_suffix_sendVectorText {lib : TimeLib} {c : Scan} {s s' : ServerHttp}
    (h : sendVector lib c s = some s') : showText s'.v <:+ sendVectorText lib c s := by
  rw [sendVectorText, h]
  exact (List.suffix_append _ _).trans (List.suffix_append _ _)

/-- The table is the last that calls print. -/
theorem showText_suffix_printed {lib : TimeLib} {calls : List Scan} (hne : calls ≠ [])
    {s s' : ServerHttp} (h : calls.foldlM (fun s c => sendVector lib c s) s = some s') :
    showText s'.v <:+ printed lib calls s := by
  induction calls generalizing s with
  | nil => exact absurd rfl hne
  | cons c calls ih =>
    rw [List.foldlM_cons] at h
    obtain ⟨s₁, hs₁, hrest⟩ := Option.bind_eq_some_iff.mp h
    rw [printed, hs₁, Option.map_some, Option.getD_some]
    by_cases hcalls : calls = []
    · subst hcalls
      obtain rfl := Option.some.inj hrest
      rw [printed, List.append_nil]
      exact showText_suffix_sendVectorText hs₁
    · exact (ih hcalls hrest).trans (List.suffix_append _ _)

/-- What a table with the history `calls` should say of the pair `k`: the time of its first
scan, that of its latest one if there are two, and the counters. -/
def historyRow (lib : TimeLib) (calls : List Scan) (k : Bytes × Bytes) : List Bytes :=
  match scanTimes calls k with
  | [] => []
  | t₀ :: ts =>
    [k.1, k.2, lib.getTime t₀, (ts.getLast?.map lib.getTime).getD [],
      timeText (recordOf lib k t₀ ts)]

theorem recordOf_key (lib : TimeLib) (k : Bytes × Bytes) (t₀ : ℤ) (ts : List ℤ) :
    (recordOf lib k t₀ ts).key = k := by
  induction ts using List.reverseRecOn with
  | nil => rfl
  | append_singleton ts t ih => rw [recordOf_append_singleton, depart_key, ih]

theorem cells_recordOf (lib : TimeLib) (k : Bytes × Bytes) (t₀ : ℤ) (ts : List ℤ) :
    cells (recordOf lib k t₀ ts) =
      [k.1, k.2, lib.getTime t₀, (ts.getLast?.map lib.getTime).getD [],
        timeText (recordOf lib k t₀ ts)] := by
  have hkey : (recordOf lib k t₀ ts).key = k := recordOf_key lib k t₀ ts
  obtain ⟨hname, hid⟩ := Prod.ext_iff.mp hkey
  have hleave : (recordOf lib k t₀ ts).leaveTime = (ts.getLast?.map lib.getTime).getD [] := by
    cases hlast : ts.getLast? with
    | none =>
      rw [List.getLast?_eq_none_iff.mp hlast]
      rfl
    | some t => exact (recordOf_departure lib k t₀ ts hlast).2
  rw [cells, (recordOf_arrival lib k t₀ ts).2, hleave]
  exact congrArg₂ (fun a b => a :: b :: _) hname hid

/-- **What the operator reads.** After any connections, the last table that was printed is
that of the store. Read as a table it has one row for each person and id, in the order of their
first scans, with the times of the first scan and of the latest one and the time at work, iff
no check-in has a tab or a newline in its name or its id. -/
theorem operator_reads (lib : TimeLib)
    (htimes : ∀ t, Plain (lib.getTime t)) (visits : List Visit)
    (hlib : ∀ c ∈ visits, c.env.lib = lib) {traces : List (List Event)} {s : ServerHttp}
    (h : Served ServerHttp.init visits traces s) {calls : List Scan}
    (hcalls : calls = visits.filterMap Visit.scan) :
    (calls ≠ [] → showText s.v <:+ printed lib calls ServerHttp.init) ∧
      (readTable (showText s.v) =
          (KeyedLog.order (calls.map Scan.key)).map (historyRow lib calls) ↔
        ∀ c ∈ calls, Plain c.key.1 ∧ Plain c.key.2) := by
  subst hcalls
  obtain ⟨-, hs⟩ := (served_iff lib visits hlib traces s).mp h
  have hshows := shows_of_sendVectors lib (checkIns_pos h) hs
  have hrecords : ∀ r ∈ s.v, ∃ t₀ ts, scanTimes (visits.filterMap Visit.scan) r.key = t₀ :: ts ∧
      r = recordOf lib r.key t₀ ts := by
    rw [sendVectors_eq lib _ (checkIns_pos h), Option.some.injEq] at hs
    subst hs
    exact fun r hr => record_eq_recordOf lib _ hr
  have hrows : s.v.map cells = (KeyedLog.order ((visits.filterMap Visit.scan).map Scan.key)).map
      (historyRow lib (visits.filterMap Visit.scan)) := by
    rw [← hshows.order_eq, List.map_map]
    refine List.map_congr_left fun r hr => ?_
    obtain ⟨t₀, ts, hscans, hrec⟩ := hrecords r hr
    rw [Function.comp_apply, historyRow, hscans]
    dsimp only
    rw [← cells_recordOf, ← hrec]
  have hplain : ∀ r ∈ s.v, Plain r.arriveTime ∧ Plain r.leaveTime := by
    intro r hr
    obtain ⟨t₀, ts, hscans, hrec⟩ := hrecords r hr
    have hcells := cells_recordOf lib r.key t₀ ts
    rw [← hrec] at hcells
    simp only [cells, List.cons.injEq] at hcells
    rw [hcells.2.2.1, hcells.2.2.2.1]
    refine ⟨htimes t₀, ?_⟩
    cases ts.getLast? with
    | none => exact ⟨List.not_mem_nil, List.not_mem_nil⟩
    | some t => exact htimes t
  refine ⟨fun hne => showText_suffix_printed hne hs, ?_⟩
  rw [← hrows, readTable_showText_iff hplain]
  have hmem : ∀ k, k ∈ s.v.map UserNode.key ↔ k ∈ (visits.filterMap Visit.scan).map Scan.key := by
    intro k
    rw [hshows.order_eq]
    exact KeyedLog.mem_order _ _
  constructor
  · intro hall c hc
    obtain ⟨r, hr, hkey⟩ := List.mem_map.mp ((hmem c.key).mpr (List.mem_map_of_mem hc))
    rw [← hkey]
    exact hall r hr
  · intro hall r hr
    obtain ⟨c, hc, hkey⟩ := List.mem_map.mp ((hmem r.key).mp (List.mem_map_of_mem hr))
    have hpair := hall c hc
    rw [hkey] at hpair
    exact hpair

/-! ## The times of the C locale -/

theorem notMem_twoDigits {c : UInt8} (hdigit : isDigit c = false) (n : ℕ) : c ∉ twoDigits n := by
  have hzero : c ≠ ch '0' := by
    rintro rfl
    exact absurd hdigit (by decide)
  rw [twoDigits]
  split_ifs
  · simp [hzero, notMem_decimal hdigit n]
  · exact notMem_decimal hdigit n

theorem plain_weekday (day : ℤ) : Plain (weekday day) := by
  unfold weekday
  split <;> exact ⟨by decide, by decide⟩

theorem plain_getTime_utc (t : ℤ) : Plain (TimeLib.utc.getTime t) := by
  have hnotMem : ∀ c, isDigit c = false → c ∉ [ch '.', ch ':', ch ' '] →
      (∀ day, c ∉ weekday day) → c ∉ utcText t := by
    intro c hdigit hmarks hday
    simp only [List.mem_cons, List.not_mem_nil, or_false, not_or] at hmarks
    obtain ⟨hdot, hcolon, hspace⟩ := hmarks
    simp [utcText, civilDate, notMem_twoDigits hdigit, notMem_decimal hdigit, hday, hdot, hcolon,
      hspace]
  exact ⟨hnotMem TAB (by decide) (by decide) fun day => (plain_weekday day).1,
    hnotMem LF (by decide) (by decide) fun day => (plain_weekday day).2⟩

/-- One person, scanned at 0 s and at 70 s. -/
theorem operator_reads_example :
    ∃ traces s, Served ServerHttp.init [checkInAt 0, checkInAt 70] traces s ∧
      readTable (showText s.v) =
        [[bytes "1", bytes "2", bytes "1970.01.01 00:00:00 Thursday",
          bytes "1970.01.01 00:01:10 Thursday",
          bytes "0" ++ dayMark ++ bytes "0" ++ hourMark ++ bytes "1" ++ minMark ++ bytes "10" ++
            secMark]] := by
  obtain ⟨es, hes⟩ := alone_checkInAt 0
  obtain ⟨es', hes'⟩ := alone_checkInAt 70
  have hlib : ∀ c ∈ [checkInAt 0, checkInAt 70], c.env.lib = TimeLib.utc := by
    simp [checkInAt, hiEnv, bareEnv]
  obtain ⟨s, hs⟩ : ∃ s, sendVectors TimeLib.utc
      ([checkInAt 0, checkInAt 70].filterMap Visit.scan) = some s :=
    Option.isSome_iff_exists.mp (by decide +kernel)
  have hserved : Served ServerHttp.init [checkInAt 0, checkInAt 70] [es, es'] s := by
    rw [served_iff_foldlM hlib, foldlM_store]
    exact ⟨.cons hes (.cons hes' .nil), hs⟩
  have hreads := operator_reads TimeLib.utc plain_getTime_utc _ hlib hserved rfl
  refine ⟨_, s, hserved, (hreads.2.mpr ?_).trans (by decide +kernel)⟩
  unfold Plain
  decide +kernel

/-! ## The time at work -/

/-- The text says what `cout` says of the days, and the other counters. -/
theorem timeText_eq_iff (r r' : UserNode) : timeText r = timeText r' ↔
    coutDouble r.data = coutDouble r'.data ∧ r.hour = r'.hour ∧ r.min = r'.min ∧
      r.sec = r'.sec := by
  have hdouble : ∀ n, (0xE5 : UInt8) ∉ coutDouble n :=
    notMem_coutDouble (by decide) (by decide) (by decide)
  have hint : ∀ n, (0xE6 : UInt8) ∉ decimalInt n := notMem_decimalInt (by decide) (by decide)
  have hint' : ∀ n, (0xE5 : UInt8) ∉ decimalInt n := notMem_decimalInt (by decide) (by decide)
  constructor
  · intro h
    -- each mark begins with a byte that is in no number
    obtain ⟨hdata, h⟩ := List.append_cons_unique h (hdouble _) (hdouble _)
    have h := (List.append_right_inj [0xA4, 0xA9]).mp h
    obtain ⟨hhour, h⟩ := List.append_cons_unique h (hint _) (hint _)
    have h := (List.append_right_inj [0x97, 0xB6]).mp h
    obtain ⟨hmin, h⟩ := List.append_cons_unique h (hint' _) (hint' _)
    have h := (List.append_right_inj [0x88, 0x86]).mp h
    exact ⟨hdata, decimalInt_injective hhour, decimalInt_injective hmin,
      decimalInt_injective (List.append_cancel_right h)⟩
  · rintro ⟨hdata, hhour, hmin, hsec⟩
    rw [timeText, timeText, hdata, hhour, hmin, hsec]

/-- **The time that a row shows** tells the time of the record iff it is less than a million
days: from there on `cout` rounds the days. -/
theorem timeText_determines_iff {r : UserNode} (hr : InRange r) :
    (∀ r', InRange r' → timeText r' = timeText r → r'.total = r.total) ↔ r.data < 10 ^ 6 := by
  rw [← coutDouble_determines_iff]
  constructor
  · intro h n hn
    have htotal := h { r with data := n } ⟨hr.sec_nonneg, hr.sec_lt, hr.min_nonneg, hr.min_lt,
      hr.hour_nonneg, hr.hour_lt⟩ ((timeText_eq_iff _ _).mpr ⟨hn, rfl, rfl, rfl⟩)
    simp only [UserNode.total] at htotal
    omega
  · intro h r' _ heq
    obtain ⟨hdata, hhour, hmin, hsec⟩ := (timeText_eq_iff r' r).mp heq
    rw [UserNode.total, UserNode.total, h r'.data hdata, hhour, hmin, hsec]

/-- A record with no time in it, and one of a million days. -/
theorem timeText_determines_iff_example :
    (∀ r', InRange r' → timeText r' = timeText (buynode [] []) → r'.total = 0) ∧
      ¬ ∀ r', InRange r' → timeText r' = timeText (buynode [] [] [] [] (10 ^ 6)) →
        r'.total = (buynode [] [] [] [] (10 ^ 6)).total := by
  have hrange : ∀ d, InRange (buynode [] [] [] [] d) := fun d => by
    constructor <;> simp [buynode]
  exact ⟨(timeText_determines_iff (hrange 0)).mpr (by decide),
    fun h => absurd ((timeText_determines_iff (hrange _)).mp h) (lt_irrefl _)⟩

end FacePerception.Server
