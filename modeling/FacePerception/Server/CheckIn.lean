import FacePerception.Server.Store
import Mathlib.Algebra.Order.BigOperators.Group.List
import Mathlib.Algebra.BigOperators.Group.List.Basic

/-!
# Check-ins one after another

What a sequence of `send_vector` calls makes of the initial `server_class`.

Results:
* `sendVectors_refine`: the store is a log kept by (name, id) in order of first
  scan; a record keeps the time of its first scan and that of its latest one,
  and a scan leaves the records of all other pairs alone.
* `recordOf_total_eq_iff`: the counters of a record add the time since its *first*
  scan at every later one, so they hold the time between first and last scan only
  when every scan in between fell in the same second as the first.
-/

namespace FacePerception.Server

open CString CNum

variable (lib : TimeLib)

/-! ## The record of one pair -/

/-- The clock readings of the scans of the pair `k`. -/
def scanTimes (calls : List Scan) (k : Bytes × Bytes) : List ℤ :=
  (calls.filter fun c => c.key = k).map Scan.clock

/-- The record of the pair `k` scanned at `t₀` and then at the times `ts`. -/
def recordOf (k : Bytes × Bytes) (t₀ : ℤ) (ts : List ℤ) : UserNode :=
  ts.foldl (fun r t => depart lib (lib.localtime t) (lib.getTime t) r)
    (arrive lib (lib.localtime t₀) (lib.getTime t₀) (buynode k.1 k.2))

theorem recordOf_append_singleton (k : Bytes × Bytes) (t₀ : ℤ) (ts : List ℤ) (t : ℤ) :
    recordOf lib k t₀ (ts ++ [t]) =
      depart lib (lib.localtime t) (lib.getTime t) (recordOf lib k t₀ ts) := by
  simp [recordOf, List.foldl_append]

/-- The first scan fixes the arrival fields. -/
theorem recordOf_arrival (k : Bytes × Bytes) (t₀ : ℤ) (ts : List ℤ) :
    (recordOf lib k t₀ ts).startTime = t₀ ∧ (recordOf lib k t₀ ts).arriveTime = lib.getTime t₀ := by
  induction ts using List.reverseRecOn with
  | nil => exact ⟨lib.mktime_localtime t₀, rfl⟩
  | append_singleton ts t ih =>
    rw [recordOf_append_singleton]
    obtain ⟨s, m, h, d, heq⟩ :=
      depart_frame lib (lib.localtime t) (lib.getTime t) (recordOf lib k t₀ ts)
    rw [heq]
    exact ih

/-- The latest scan, if not the first, fixes the departure fields. -/
theorem recordOf_departure (k : Bytes × Bytes) (t₀ : ℤ) (ts : List ℤ) {t : ℤ}
    (ht : ts.getLast? = some t) :
    (recordOf lib k t₀ ts).endTime = t ∧ (recordOf lib k t₀ ts).leaveTime = lib.getTime t := by
  induction ts using List.reverseRecOn with
  | nil => simp at ht
  | append_singleton ts t' _ =>
    rw [List.getLast?_concat, Option.some.injEq] at ht
    subst ht
    rw [recordOf_append_singleton]
    obtain ⟨s, m, h, d, heq⟩ :=
      depart_frame lib (lib.localtime t') (lib.getTime t') (recordOf lib k t₀ ts)
    rw [heq]
    exact ⟨lib.mktime_localtime t', rfl⟩

/-! ## Runs of `send_vector` -/

theorem sendVectors_append_singleton (calls : List Scan) (c : Scan) :
    sendVectors lib (calls ++ [c]) = (sendVectors lib calls).bind (sendVector lib c) := by
  rw [sendVectors, List.foldlM_append]
  simp only [List.foldlM_cons, List.foldlM_nil, bind_pure]
  rfl

/-- The store after a run, as the log kept by (name, id). -/
theorem sendVectors_eq (calls : List Scan) (hq : ∀ c ∈ calls, strlen c.query > 0) :
    sendVectors lib calls = some
      { size := (KeyedLog.order (calls.map Scan.key)).length,
        v := calls.foldl (attendance lib).upsert [] } := by
  induction calls using List.reverseRecOn with
  | nil => rfl
  | append_singleton calls c ih =>
    have hkeys : (calls.foldl (attendance lib).upsert []).map UserNode.key =
        KeyedLog.order (calls.map Scan.key) := (attendance lib).keys_foldl_upsert calls
    rw [sendVectors_append_singleton, ih fun c hc => hq c (List.mem_append_left _ hc),
      Option.bind_some, sendVector_eq lib c _ (hq c (by simp)), hkeys, List.map_append,
      List.map_cons, List.map_nil, KeyedLog.order_append_singleton, List.foldl_append]
    split_ifs <;> simp

theorem record_eq_recordOf (calls : List Scan) {r : UserNode}
    (hr : r ∈ calls.foldl (attendance lib).upsert []) :
    ∃ t₀ ts, scanTimes calls r.key = t₀ :: ts ∧ r = recordOf lib r.key t₀ ts := by
  have hentry : (attendance lib).entryOf calls r.key = some r :=
    (attendance lib).entryOf_of_mem_foldl calls r hr
  rw [KeyedLog.entryOf] at hentry
  have hkey : ∀ e ∈ (attendance lib).eventsOf calls r.key, e.key = r.key := by
    intro e he
    exact of_decide_eq_true (List.mem_filter.mp he).2
  have htimes : scanTimes calls r.key =
      ((attendance lib).eventsOf calls r.key).map Scan.clock := rfl
  cases hev : (attendance lib).eventsOf calls r.key with
  | nil => simp [hev, KeyedLog.replay] at hentry
  | cons e es =>
    rw [hev, KeyedLog.replay, Option.some.injEq] at hentry
    refine ⟨e.clock, es.map Scan.clock, by rw [htimes, hev, List.map_cons], ?_⟩
    rw [recordOf, List.foldl_map, ← hkey e (by simp [hev])]
    exact hentry.symm

/-! ## The store as a reference map -/

/-- The store `s` shows the history `calls`. -/
structure Shows (calls : List Scan) (s : ServerHttp) : Prop where
  nodup : (s.v.map UserNode.key).Nodup
  size_eq : s.size = s.v.length
  card_eq : s.v.length = (calls.map Scan.key).toFinset.card
  order_eq : s.v.map UserNode.key = KeyedLog.order (calls.map Scan.key)
  times : ∀ r ∈ s.v, ∃ t₀ ts, scanTimes calls r.key = t₀ :: ts ∧
    r.startTime = t₀ ∧ r.arriveTime = lib.getTime t₀ ∧
    ∀ t, ts.getLast? = some t → r.endTime = t ∧ r.leaveTime = lib.getTime t

theorem shows_of_sendVectors {calls : List Scan} (hq : ∀ c ∈ calls, strlen c.query > 0)
    {s : ServerHttp} (hs : sendVectors lib calls = some s) : Shows lib calls s := by
  rw [sendVectors_eq lib calls hq, Option.some.injEq] at hs
  subst hs
  have hkeys : (calls.foldl (attendance lib).upsert []).map UserNode.key =
      KeyedLog.order (calls.map Scan.key) := (attendance lib).keys_foldl_upsert calls
  have hlen := congrArg List.length hkeys
  rw [List.length_map] at hlen
  refine ⟨?_, hlen.symm, ?_, hkeys, fun r hr => ?_⟩
  · rw [hkeys]
    exact KeyedLog.nodup_order _
  · rw [hlen, KeyedLog.length_order]
  · obtain ⟨t₀, ts, htimes, hrec⟩ := record_eq_recordOf lib calls hr
    obtain ⟨hstart, harrive⟩ := recordOf_arrival lib r.key t₀ ts
    refine ⟨t₀, ts, htimes, hrec ▸ hstart, hrec ▸ harrive, fun t ht => ?_⟩
    rw [hrec]
    exact recordOf_departure lib _ t₀ ts ht

/-- **The store refines the reference map.** After any sequence of calls with
non-empty queries the store shows exactly that history, and one more call leaves
every record of another pair unchanged and in place. -/
theorem sendVectors_refine (calls : List Scan) (hq : ∀ c ∈ calls, strlen c.query > 0) :
    ∃ s, sendVectors lib calls = some s ∧ Shows lib calls s ∧
      ∀ c, strlen c.query > 0 → ∃ s', sendVector lib c s = some s' ∧
        sendVectors lib (calls ++ [c]) = some s' ∧ Shows lib (calls ++ [c]) s' ∧
        ∀ (i : ℕ) (r : UserNode), s.v[i]? = some r → r.key ≠ c.key → s'.v[i]? = some r := by
  obtain ⟨s, hs⟩ : ∃ s, sendVectors lib calls = some s := ⟨_, sendVectors_eq lib calls hq⟩
  refine ⟨s, hs, shows_of_sendVectors lib hq hs, fun c hc => ?_⟩
  have hstep := sendVector_eq lib c s hc
  have hrun : sendVectors lib (calls ++ [c]) = sendVector lib c s := by
    rw [sendVectors_append_singleton, hs, Option.bind_some]
  have hq' : ∀ c' ∈ calls ++ [c], strlen c'.query > 0 := by
    intro c' hc'
    rcases List.mem_append.mp hc' with h | h
    · exact hq c' h
    · exact List.mem_singleton.mp h ▸ hc
  refine ⟨_, hstep, hrun.trans hstep, shows_of_sendVectors lib hq' (hrun.trans hstep), ?_⟩
  intro i r hi hk
  exact (attendance lib).upsert_getElem? hi hk

/-- Three scans of two people. -/
theorem sendVectors_refine_example :
    ∃ s, sendVectors TimeLib.utc [⟨bytes "name=ann&id=1", 0⟩, ⟨bytes "name=bob&id=2", 5⟩,
        ⟨bytes "name=ann&id=1", 9⟩] = some s ∧
      Shows TimeLib.utc [⟨bytes "name=ann&id=1", 0⟩, ⟨bytes "name=bob&id=2", 5⟩,
        ⟨bytes "name=ann&id=1", 9⟩] s := by
  obtain ⟨s, hs, hshows, -⟩ := sendVectors_refine TimeLib.utc
    [⟨bytes "name=ann&id=1", 0⟩, ⟨bytes "name=bob&id=2", 5⟩, ⟨bytes "name=ann&id=1", 9⟩]
    (by decide)
  exact ⟨s, hs, hshows⟩

/-! ## Work time -/

theorem depart_clocks {r : UserNode} {D : ℕ} {T : ℤ} (h : Clocks r D T) (hsec : r.sec < 60)
    {t : ℤ} (hge : r.startTime ≤ t) (hle : t - r.startTime ≤ intMax - 59) :
    ∃ D', Clocks (depart lib (lib.localtime t) (lib.getTime t) r) D' (T + (t - r.startTime)) ∧
      (depart lib (lib.localtime t) (lib.getTime t) r).sec < 60 := by
  obtain ⟨h1, h2, h3, h4, h5, h6, h7⟩ := h
  have hround : doubleToInt (r.sec + (t - r.startTime)) = r.sec + (t - r.startTime) := by
    unfold intMax at hle
    apply doubleToInt_of_range
    · unfold intMin; omega
    · unfold intMax; omega
  unfold depart calculatWorkTime
  simp only [lib.mktime_localtime, hround]
  apply workTimeLoop_clocks (D := D)
  refine ⟨?_, h2, h3, h4, h5, h6, ?_⟩ <;> dsimp only <;> omega

/-- After the scans `ts` the counters stand for the sum of the times since the
first scan. -/
theorem recordOf_clocks (k : Bytes × Bytes) (t₀ : ℤ) (ts : List ℤ) (hge : ∀ t ∈ ts, t₀ ≤ t)
    (hle : ∀ t ∈ ts, t - t₀ ≤ intMax - 59) :
    ∃ D, Clocks (recordOf lib k t₀ ts) D (ts.map (· - t₀)).sum ∧
      (recordOf lib k t₀ ts).sec < 60 := by
  induction ts using List.reverseRecOn with
  | nil =>
    have h60 : (0 : ℤ) < 60 := by norm_num
    have h8 : (0 : ℤ) < 8 := by norm_num
    exact ⟨0, ⟨le_rfl, le_rfl, h60, le_rfl, h8, rfl, rfl⟩, h60⟩
  | append_singleton ts t ih =>
    obtain ⟨D, hclocks, hsec⟩ := ih (fun t ht => hge t (List.mem_append_left _ ht))
      (fun t ht => hle t (List.mem_append_left _ ht))
    have hstart : (recordOf lib k t₀ ts).startTime = t₀ := (recordOf_arrival lib k t₀ ts).1
    rw [recordOf_append_singleton, List.map_append, List.sum_append]
    have := depart_clocks lib hclocks hsec (t := t) (by rw [hstart]; exact hge t (by simp))
      (by rw [hstart]; exact hle t (by simp))
    rw [hstart] at this
    simpa using this

theorem sum_map_sub_eq_zero_iff (t₀ : ℤ) (ts : List ℤ) (hge : ∀ t ∈ ts, t₀ ≤ t) :
    0 ≤ (ts.map (· - t₀)).sum ∧ ((ts.map (· - t₀)).sum = 0 ↔ ∀ t ∈ ts, t = t₀) := by
  induction ts with
  | nil => simp
  | cons t ts ih =>
    obtain ⟨ih1, ih2⟩ := ih fun t ht => hge t (List.mem_cons_of_mem _ ht)
    have ht := hge t (by simp)
    rw [List.map_cons, List.sum_cons, List.forall_mem_cons, ← ih2]
    omega

/-- The counters of a record hold the time between its first and its last scan
exactly when every scan in between fell in the second of the first. -/
theorem recordOf_total_eq_iff (k : Bytes × Bytes) (t₀ t : ℤ) (ts : List ℤ)
    (hge : ∀ t' ∈ ts, t₀ ≤ t') (hle : ∀ t' ∈ ts, t' ≤ t) (ht : t₀ ≤ t)
    (hmax : t - t₀ ≤ intMax - 59) :
    (recordOf lib k t₀ (ts ++ [t])).total = t - t₀ ↔ ∀ t' ∈ ts, t' = t₀ := by
  have hge' : ∀ t' ∈ ts ++ [t], t₀ ≤ t' := by simpa [or_imp, forall_and] using ⟨hge, ht⟩
  have hle' : ∀ t' ∈ ts ++ [t], t' - t₀ ≤ intMax - 59 := by
    intro t' ht'
    rcases List.mem_append.mp ht' with h | h
    · have := hle t' h
      omega
    · rw [List.mem_singleton.mp h]
      exact hmax
  obtain ⟨D, ⟨h1, h2, h3, h4, h5, h6, h7⟩, h8⟩ := recordOf_clocks lib k t₀ (ts ++ [t]) hge' hle'
  obtain ⟨hsum, hzero⟩ := sum_map_sub_eq_zero_iff t₀ ts hge
  rw [List.map_append, List.sum_append, List.map_singleton, List.sum_singleton] at h7
  rw [← hzero, UserNode.total, h6]
  unfold intMax at hmax
  omega

theorem exists_record_of_scanTimes {calls : List Scan} (hq : ∀ c ∈ calls, strlen c.query > 0)
    {s : ServerHttp} (hs : sendVectors lib calls = some s) {k : Bytes × Bytes}
    (hk : scanTimes calls k ≠ []) : ∃ r ∈ s.v, r.key = k := by
  obtain ⟨t, ht⟩ := List.exists_mem_of_ne_nil _ hk
  obtain ⟨c, hc, -⟩ := List.mem_map.mp ht
  obtain ⟨hmem, hkey⟩ := List.mem_filter.mp hc
  have hin : k ∈ s.v.map UserNode.key := by
    rw [(shows_of_sendVectors lib hq hs).order_eq, KeyedLog.mem_order]
    exact of_decide_eq_true hkey ▸ List.mem_map_of_mem hmem
  simpa using hin

/-- **Work-time accounting.** After any sequence of scans of any people, take a
pair scanned at `t₀`, then at the times `ts`, then at `t`, never going back. The
record's counters hold `end_time - start_time`, which is `t - t₀`, exactly when
every scan in between fell in the second of the first: each departure adds the
whole time since `start_time` to counters that already hold the earlier ones. -/
theorem sendVectors_total_iff (calls : List Scan) (hq : ∀ c ∈ calls, strlen c.query > 0)
    (k : Bytes × Bytes) (t₀ t : ℤ) (ts : List ℤ)
    (htimes : scanTimes calls k = t₀ :: (ts ++ [t]))
    (hmono : (t₀ :: (ts ++ [t])).Pairwise (· ≤ ·)) (hmax : t - t₀ ≤ intMax - 59) :
    ∃ s, sendVectors lib calls = some s ∧ (∃ r ∈ s.v, r.key = k) ∧
      ∀ r ∈ s.v, r.key = k →
        ((r.total = r.endTime - r.startTime ∧ r.endTime - r.startTime = t - t₀) ↔
          ∀ t' ∈ ts, t' = t₀) := by
  obtain ⟨hge, hmono⟩ := List.pairwise_cons.mp hmono
  obtain ⟨-, -, hle⟩ := List.pairwise_append.mp hmono
  have hs := sendVectors_eq lib calls hq
  refine ⟨_, hs, exists_record_of_scanTimes lib hq hs (by simp [htimes]), fun r hr hk => ?_⟩
  obtain ⟨t₁, ts₁, htimes₁, hrec⟩ := record_eq_recordOf lib calls hr
  rw [hk, htimes, List.cons.injEq] at htimes₁
  obtain ⟨rfl, rfl⟩ := htimes₁
  obtain ⟨hstart, -⟩ := recordOf_arrival lib r.key t₀ (ts ++ [t])
  obtain ⟨hend, -⟩ := recordOf_departure lib r.key t₀ (ts ++ [t]) (List.getLast?_concat ..)
  have htotal := recordOf_total_eq_iff lib r.key t₀ t ts (fun t' h => hge t' (by simp [h]))
    (fun t' h => hle t' h t (by simp)) (hge t (by simp)) hmax
  rw [← hrec] at hstart hend htotal
  rw [hstart, hend, ← htotal]
  exact and_iff_left rfl

/-- A person scanned twice at 0 s and then at 10 s. -/
theorem sendVectors_total_iff_example :
    ∃ s, sendVectors TimeLib.utc [⟨bytes "name=ann&id=1", 0⟩, ⟨bytes "name=ann&id=1", 0⟩,
        ⟨bytes "name=ann&id=1", 10⟩] = some s ∧
      (∃ r ∈ s.v, r.key = (bytes "ann", bytes "1")) ∧
      ∀ r ∈ s.v, r.key = (bytes "ann", bytes "1") →
        ((r.total = r.endTime - r.startTime ∧ r.endTime - r.startTime = 10 - 0) ↔
          ∀ t' ∈ [(0 : ℤ)], t' = 0) :=
  sendVectors_total_iff TimeLib.utc _ (by decide) (bytes "ann", bytes "1") 0 10 [0] (by decide)
    (by decide) (by decide)

/-- A person scanned at 0 s, 10 s and 20 s: the record says 30 s. -/
theorem sendVectors_total_thirty :
    ∃ s, sendVectors TimeLib.utc [⟨bytes "name=ann&id=1", 0⟩, ⟨bytes "name=ann&id=1", 10⟩,
        ⟨bytes "name=ann&id=1", 20⟩] = some s ∧
      ∃ r ∈ s.v, r.key = (bytes "ann", bytes "1") ∧
        r.endTime - r.startTime = 20 ∧ r.total = 30 := by
  refine ⟨_, sendVectors_eq TimeLib.utc _ (by decide), ?_⟩
  decide +kernel

end FacePerception.Server
