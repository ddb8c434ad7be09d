import FacePerception.Server.OneRecord

/-!
# Each request stores its own time

`get_time` leaves `T` pointing at the one static `struct tm` and unlocks the
mutex; `mktime(T)` comes later (`server/server_http.h`, lines 88–90, 564 and 596).

Results:
* `stampsOwn_of_getTimeAlone`: a request stores the clock reading it rendered in
  every run in which no thread runs `get_time` at another reading while a request
  is between its `get_time` and its `mktime`.
* `exists_foreign_stamp_of_overlap`: from any state in which a `get_time` comes
  between an arrival's `get_time` and its `push_back`, the run can go on until the
  arrival stores the other reading.
-/

namespace FacePerception.Server.Threads

open CString

variable {lib : TimeLib} {ι : Type} [DecidableEq ι]

/-! ## The invariant -/

/-- Thread `i` is between its `get_time` and the `mktime(T)` that reads the static
`struct tm`. -/
def HoldsTm (s : Threads lib ι) (i : ι) : Prop :=
  match (s.thread i).pc with
  | .timed | .missed | .counted | .returned | .departing | .arriving => True
  | _ => False

instance decidableHoldsTm (s : Threads lib ι) (i : ι) : Decidable (s.HoldsTm i) :=
  decidable_of_iff ((s.thread i).pc ∈ [.timed, .missed, .counted, .returned, .departing,
      .arriving]) (by
    unfold HoldsTm
    cases (s.thread i).pc <;> simp)

/-- If `x` is a `get_time`, it reads the clock every request still needs. -/
def GetTimeAlone (s : Threads lib ι) (x : Move ι) : Prop :=
  (s.thread x.i).pc = .named → ∀ j ≠ x.i, s.HoldsTm j → (s.thread j).clock = x.now

instance decidableGetTimeAlone [Fintype ι] (s : Threads lib ι) (x : Move ι) :
    Decidable (GetTimeAlone s x) :=
  inferInstanceAs (Decidable (_ → ∀ j, j ≠ x.i → s.HoldsTm j → (s.thread j).clock = x.now))

/-- If `x` stores a time in a record, it stores the clock reading of its own
request: the number in `start_time` or `end_time`, its text in `arrive_time` or
`leave_time`. -/
def StampsOwn (s : Threads lib ι) (x : Move ι) : Prop :=
  s.aborted = false →
  match (s.thread x.i).pc with
  | .arriving => ∃ r, (s.step x).server.v = s.server.v ++ [r] ∧
      r.startTime = (s.thread x.i).clock ∧ r.arriveTime = lib.getTime (s.thread x.i).clock
  | .departing => (s.step x).server = (s.store (s.thread x.i).prev fun r =>
      { r with endTime := (s.thread x.i).clock }).server
  | .stamped => (s.step x).server = (s.store (s.thread x.i).prev fun r =>
      { r with leaveTime := lib.getTime (s.thread x.i).clock }).server
  | _ => True

/-- What keeps the times of the requests apart. -/
structure OwnTimes (s : Threads lib ι) : Prop where
  tm_eq : ∀ i, s.HoldsTm i → s.tm = lib.localtime (s.thread i).clock
  text_eq : ∀ i, (s.thread i).pc ≠ .start → (s.thread i).pc ≠ .named →
    (s.thread i).localTime = lib.getTime (s.thread i).clock

/-- Only `get_time` sets the time of a request, and only after it does the request
need the static `struct tm`. -/
theorem step_times (s : Threads lib ι) (x : Move ι) (hpc : (s.thread x.i).pc ≠ .named) :
    ((s.step x).thread x.i).clock = (s.thread x.i).clock ∧
      ((s.step x).thread x.i).localTime = (s.thread x.i).localTime ∧
      ((s.step x).HoldsTm x.i → s.HoldsTm x.i) ∧
      ((s.thread x.i).pc = .start → ((s.step x).thread x.i).pc = .start ∨
        ((s.step x).thread x.i).pc = .named) := by
  have hmoved := s.step_moved x
  rw [HoldsTm, HoldsTm]
  generalize s.thread x.i = th at hmoved hpc
  generalize (s.step x).thread x.i = th' at hmoved
  cases hmoved with
  | stays => exact ⟨rfl, rfl, id, Or.inl⟩
  | named => simp
  | timed h => exact absurd h hpc
  | finished h => rcases h with h | h <;> simp [h]
  | _ h => simp [h]

theorem ownTimes_step {s : Threads lib ι} (h : OwnTimes s) (x : Move ι)
    (hx : GetTimeAlone s x) : OwnTimes (s.step x) := by
  by_cases hpc : (s.thread x.i).pc = .named
  · cases hab : s.aborted with
    | true => rwa [step_of_aborted x hab]
    | false =>
      have hstep : s.step x = { s with tm := lib.localtime x.now }.put x.i
          { s.thread x.i with
            pc := .timed, clock := x.now, localTime := lib.getTime x.now } := by
        rw [step_of_alive x hab]
        simp only [act, hpc, TimeLib.getTime]
      refine ⟨fun j hj => ?_, fun j hs hn => ?_⟩
      · by_cases hji : j = x.i
        · subst hji
          simp [hstep]
        · -- the reading of every other request in flight is the new one
          have hth := s.step_thread_of_ne x hji
          have hclock : (s.thread j).clock = x.now := by
            apply hx hpc j hji
            unfold HoldsTm at hj ⊢
            rwa [hth] at hj
          rw [hth, hclock, hstep, put_tm]
      · by_cases hji : j = x.i
        · subst hji
          simp [hstep]
        · rw [s.step_thread_of_ne x hji] at hs hn ⊢
          exact h.text_eq j hs hn
  · obtain ⟨hclock, htext, hholds, hstart⟩ := s.step_times x hpc
    refine ⟨fun j hj => ?_, fun j hs hn => ?_⟩
    · rw [s.step_tm x hpc]
      by_cases hji : j = x.i
      · subst hji
        rw [hclock]
        exact h.tm_eq _ (hholds hj)
      · have hth := s.step_thread_of_ne x hji
        rw [hth]
        apply h.tm_eq
        unfold HoldsTm at hj ⊢
        rwa [hth] at hj
    · by_cases hji : j = x.i
      · subst hji
        rw [hclock, htext]
        refine h.text_eq _ (fun hbefore => ?_) hpc
        exact (hstart hbefore).elim hs hn
      · rw [s.step_thread_of_ne x hji] at hs hn ⊢
        exact h.text_eq j hs hn

omit [DecidableEq ι] in
theorem ownTimes_init (tm : lib.Tm) (query : ι → Bytes) : OwnTimes (init lib tm query) := by
  refine ⟨fun i hi => ?_, fun i hi _ => ?_⟩
  · simp [HoldsTm, init, Thread.enter] at hi
  · exact absurd rfl hi

theorem OwnTimes.stampsOwn {s : Threads lib ι} (h : OwnTimes s) (x : Move ι) :
    StampsOwn s x := by
  intro hab
  have hstep := step_of_alive x hab
  cases hpc : (s.thread x.i).pc <;> dsimp only
  case arriving =>
    have htm := h.tm_eq x.i (by simp [HoldsTm, hpc])
    have htext := h.text_eq x.i (by simp [hpc]) (by simp [hpc])
    refine ⟨arrive lib s.tm (s.thread x.i).localTime (s.thread x.i).tmp, ?_, ?_, htext⟩
    · rw [hstep]
      simp [act, hpc]
    · rw [htm]
      exact lib.mktime_localtime _
  case departing =>
    have htm := h.tm_eq x.i (by simp [HoldsTm, hpc])
    rw [hstep]
    simp [act, hpc, htm, lib.mktime_localtime]
  case stamped =>
    have htext := h.text_eq x.i (by simp [hpc]) (by simp [hpc])
    rw [hstep]
    simp [act, hpc, htext]

/-- **Each request stores its own time** in every run in which no thread runs
`get_time` at another reading while a request is between its `get_time` and its
`mktime`. -/
theorem stampsOwn_of_getTimeAlone (lib : TimeLib) (tm : lib.Tm) (query : ι → Bytes)
    (moves : List (Move ι)) (h : Runs.Along step GetTimeAlone (init lib tm query) moves) :
    Runs.Along step StampsOwn (init lib tm query) moves :=
  Runs.along_of_inv OwnTimes (fun _ x hs hx => ownTimes_step hs x hx)
    (fun _ x hs _ => hs.stampsOwn x) moves _ (ownTimes_init tm query) h

/-- An arrival at 0 s and, when it is done, a departure at 100 s. -/
theorem stampsOwn_of_getTimeAlone_example :
    Runs.Along step StampsOwn (init TimeLib.utc (0 : ℤ) fun _ : Bool => bytes "name=ann&id=1")
      ([(true, 0), (true, 0), (true, 0), (true, 0), (true, 0), (true, 0), (true, 0), (false, 100),
        (false, 100), (false, 100), (false, 100), (false, 100), (false, 100)].map
        fun m => ⟨m.1, m.2, true⟩) :=
  stampsOwn_of_getTimeAlone TimeLib.utc _ _ _ (by decide +kernel)

/-- The request that arrived at 0 s stores the 100 s of the other one. -/
theorem two_threads_foreign_stamp :
    ¬ Runs.Along step StampsOwn (init TimeLib.utc (0 : ℤ) fun _ : Bool => bytes "name=ann&id=1")
      ([⟨true, 0, true⟩, ⟨true, 0, true⟩, ⟨false, 100, true⟩, ⟨false, 100, true⟩,
        ⟨true, 0, true⟩, ⟨true, 0, true⟩, ⟨true, 0, true⟩, ⟨true, 0, true⟩] ++
        [⟨true, 0, true⟩]) := by
  rw [Runs.along_append]
  rintro ⟨-, hlast, -⟩
  obtain ⟨r, hv, hstart, -⟩ := hlast (by decide +kernel)
  have hstored := congrArg (List.map UserNode.startTime) hv
  rw [List.map_append, List.map_singleton, hstart] at hstored
  revert hstored
  decide +kernel

/-- `push_back` with another reading in the static `struct tm`. -/
theorem not_stampsOwn {s : Threads lib ι} (hab : s.aborted = false) {j : ι}
    (hpc : (s.thread j).pc = .arriving) {t : ℤ} (htm : s.tm = lib.localtime t)
    (ht : (s.thread j).clock ≠ t) : ¬ StampsOwn s ⟨j, 0, false⟩ := by
  intro h
  have hstamp := h hab
  simp only [hpc] at hstamp
  obtain ⟨r, hv, hstart, -⟩ := hstamp
  have hstep := step_of_alive ⟨j, 0, false⟩ hab
  simp only [act, hpc] at hstep
  rw [hstep, put_server, List.append_cancel_left_eq, List.cons.injEq] at hv
  rw [← hv.1, arrive, htm] at hstart
  exact ht ((lib.mktime_localtime t).symm.trans hstart).symm

/-- **The condition is tight** for arrivals. Where a thread runs `get_time` at
another reading while a request that found no record is on its way to
`push_back`, the run can go on until that request stores the other reading. -/
theorem exists_foreign_stamp_of_overlap {s : Threads lib ι} (hab : s.aborted = false) {i j : ι}
    (hij : j ≠ i) (hpc : (s.thread i).pc = .named) (hj : s.Pending j) {t : ℤ}
    (ht : (s.thread j).clock ≠ t) :
    ∃ moves, ¬ Runs.Along step StampsOwn s (⟨i, t, false⟩ :: moves) := by
  -- thread `i` overwrites the static `struct tm`
  have hstep : s.step ⟨i, t, false⟩ = { s with tm := lib.localtime t }.put i
      { s.thread i with pc := .timed, clock := t, localTime := lib.getTime t } := by
    rw [step_of_alive ⟨i, t, false⟩ hab]
    simp only [act, hpc, TimeLib.getTime]
  have hth := s.step_thread_of_ne ⟨i, t, false⟩ hij
  have hpend : (s.step ⟨i, t, false⟩).Pending j := by
    unfold Pending at hj ⊢
    rw [hth]
    rwa [hstep]
  -- thread `j` comes to its `push_back` and renders what it finds there
  obtain ⟨moves, hto, hpc'⟩ := Pending.exists_arriving (by rw [hstep]; exact hab) hpend
  refine ⟨moves ++ [⟨j, 0, false⟩], fun h => ?_⟩
  obtain ⟨-, hlast, -⟩ := (Runs.along_append moves _ _).mp h.2
  have htm : ((s.step ⟨i, t, false⟩).run moves).tm = lib.localtime t := by
    rw [hto.tm, hstep, put_tm]
  have hclock : (((s.step ⟨i, t, false⟩).run moves).thread j).clock = (s.thread j).clock :=
    hto.clock.trans (congrArg Thread.clock hth)
  exact not_stampsOwn hto.alive hpc' htm (hclock ▸ ht) hlast

end FacePerception.Server.Threads
