import FacePerception.Server.CheckIn
import FacePerception.Server.Counter
import FacePerception.Server.OwnTime

/-!
# Requests as if they came one after another

The author took the mutex out of the branches of `send_vector` again (`server/server_http.h`,
lines 556–558, 562 and 576), so that requests interleave there. This module says when that
makes no difference: what `sendVectors` makes of the requests, in the order in which they
finish, is what the threads leave behind.

Results:
* `serial_step`: what a step keeps.
* `serializable`: the store of the threads is that of the requests one after another.
-/

namespace FacePerception.Server.Threads

open CString

variable {lib : TimeLib} {ι : Type}

/-! ## Requests under way -/

/-- Thread `i` has scanned `v` and is not finished. -/
def InFlight (s : Threads lib ι) (i : ι) : Prop :=
  (s.thread i).pc ∉ [.start, .named, .timed, .finished]

/-- Thread `i` holds what `find_id` has returned. -/
def HoldsIter (s : Threads lib ι) (i : ι) : Prop :=
  (s.thread i).pc ∈ [.returned, .departing, .stamped, .leaving, .carrying]

/-- Thread `i` has found the record of its pair and is not done with it. -/
def Updating (s : Threads lib ι) (i : ι) : Prop :=
  match (s.thread i).pc with
  | .departing | .stamped | .leaving | .carrying => True
  | .returned => (s.thread i).prev ≠ s.vEnd
  | _ => False

instance decidableInFlight (s : Threads lib ι) (i : ι) : Decidable (s.InFlight i) :=
  inferInstanceAs (Decidable (_ ∉ _))

instance decidableHoldsIter (s : Threads lib ι) (i : ι) : Decidable (s.HoldsIter i) :=
  inferInstanceAs (Decidable (_ ∈ _))

theorem Updating.inFlight {s : Threads lib ι} {i : ι} (h : s.Updating i) : s.InFlight i := by
  unfold Updating at h
  unfold InFlight
  cases hpc : (s.thread i).pc <;> simp [hpc] at h ⊢

theorem Updating.holdsIter {s : Threads lib ι} {i : ι} (h : s.Updating i) : s.HoldsIter i := by
  unfold Updating at h
  unfold HoldsIter
  cases hpc : (s.thread i).pc <;> simp [hpc] at h ⊢

theorem Updating.ne_finished {s : Threads lib ι} {i : ι} (h : s.Updating i) :
    (s.thread i).pc ≠ .finished := by
  intro hpc
  simp [Updating, hpc] at h

theorem Pending.inFlight {s : Threads lib ι} {i : ι} (h : s.Pending i) : s.InFlight i := by
  unfold Pending at h
  unfold InFlight
  cases hpc : (s.thread i).pc <;> simp [hpc] at h ⊢

/-- A scan of thread `i` as one call of `send_vector`. -/
def scanOf (s : Threads lib ι) (i : ι) : Scan := ⟨(s.thread i).query, (s.thread i).clock⟩

/-- What the calls of the threads `order` make of the empty store. -/
def reference (s : Threads lib ι) (order : List ι) : List UserNode :=
  (order.map s.scanOf).foldl (attendance lib).upsert []

/-- The departure of thread `th` from the record `r`. -/
def departed (lib : TimeLib) (th : Thread) (r : UserNode) : UserNode :=
  depart lib (lib.localtime th.clock) (lib.getTime th.clock) r

/-- What is left of that departure where `th` stands. -/
def remaining (lib : TimeLib) (th : Thread) (r : UserNode) : UserNode :=
  match th.pc with
  | .stamped => calculatWorkTime { r with leaveTime := lib.getTime th.clock }
  | .leaving => calculatWorkTime r
  | .carrying => workTimeLoop r
  | _ => departed lib th r

variable [DecidableEq ι]

/-- If `x` is a scan, no other request of its pair is under way; if it is a `get_time`, no
request still needs another reading; if it is a `push_back`, no thread is about to compare
with `v.end()`, and none holds an iterator that it makes stale. -/
structure Alone (s : Threads lib ι) (x : Move ι) : Prop where
  scan : (s.thread x.i).pc = .timed → ∀ j ≠ x.i, s.InFlight j → s.keyOf j ≠ s.keyOf x.i
  time : GetTimeAlone s x
  push : (s.thread x.i).pc = .arriving →
    ∀ j ≠ x.i, s.HoldsIter j → (s.thread j).prev ≠ s.vEnd ∧ x.moved = false

instance decidableAlone [Fintype ι] (s : Threads lib ι) (x : Move ι) : Decidable (Alone s x) :=
  let _ : Decidable ((s.thread x.i).pc = .timed → ∀ j, j ≠ x.i → s.InFlight j →
    s.keyOf j ≠ s.keyOf x.i) := inferInstance
  let _ : Decidable ((s.thread x.i).pc = .arriving → ∀ j, j ≠ x.i → s.HoldsIter j →
    (s.thread j).prev ≠ s.vEnd ∧ x.moved = false) := inferInstance
  decidable_of_iff (((s.thread x.i).pc = .timed → _) ∧ GetTimeAlone s x ∧
      ((s.thread x.i).pc = .arriving → _))
    ⟨fun h => ⟨h.1, h.2.1, h.2.2⟩, fun h => ⟨h.scan, h.time, h.push⟩⟩

/-- The threads in the order in which they finish. -/
def finishOrder (s : Threads lib ι) : List (Move ι) → List ι
  | [] => []
  | x :: moves =>
    if (s.thread x.i).pc ≠ .finished ∧ ((s.step x).thread x.i).pc = .finished then
      x.i :: finishOrder (s.step x) moves
    else finishOrder (s.step x) moves

omit [DecidableEq ι] in
theorem Alone.scanAlone {s : Threads lib ι} {x : Move ι} (h : Alone s x) : ScanAlone s x :=
  fun hpc j hj hp => h.scan hpc j hj hp.inFlight

omit [DecidableEq ι] in
theorem Alone.pushAlone {s : Threads lib ι} {x : Move ι} (h : Alone s x) : PushAlone s x :=
  fun hpc j hj hret => (h.push hpc j hj (by simp [HoldsIter, hret])).1

/-! ## The threads -/

/-- What the threads know and how they stay apart. -/
structure Orderly (s : Threads lib ι) : Prop where
  apart : Apart s
  times : OwnTimes s
  request : ∀ i, (s.thread i).pc ≠ .start → strlen (s.thread i).query > 0 ∧
    (s.thread i).tmp = buynode (s.scanOf i).key.1 (s.scanOf i).key.2
  distinct : ∀ i j, i ≠ j → s.InFlight i → s.InFlight j → s.keyOf i ≠ s.keyOf j

/-- `get_string` is called on a query that is not empty. -/
theorem strlen_pos_of_step {s : Threads lib ι} {x : Move ι} (hpc : (s.thread x.i).pc = .start)
    (hpc' : ((s.step x).thread x.i).pc ≠ .start) : strlen (s.thread x.i).query > 0 := by
  by_contra hnot
  refine hpc' ?_
  cases hab : s.aborted with
  | true => rw [step_of_aborted x hab, hpc]
  | false =>
    rw [step_of_alive x hab]
    simp only [act, hpc, if_neg hnot]

/-- What a step makes of the request of its thread. -/
theorem Orderly.self {s : Threads lib ι} (h : Orderly s) (x : Move ι) (hx : Alone s x) :
    (((s.step x).thread x.i).pc ≠ .start → strlen ((s.step x).thread x.i).query > 0 ∧
        ((s.step x).thread x.i).tmp =
          buynode ((s.step x).scanOf x.i).key.1 ((s.step x).scanOf x.i).key.2) ∧
      ((s.step x).InFlight x.i → ∀ j ≠ x.i, s.InFlight j → s.keyOf j ≠ (s.step x).keyOf x.i) := by
  have hmoved := s.step_moved x
  have hstart := strlen_pos_of_step (s := s) (x := x)
  have hrequest := h.request x.i
  have hscan : (s.thread x.i).pc = .timed → ∀ j ≠ x.i, s.InFlight j →
      s.keyOf j ≠ (s.thread x.i).tmp.key := hx.scan
  have hflight : (s.thread x.i).pc ∉ [.start, .named, .timed, .finished] →
      ∀ j ≠ x.i, s.InFlight j → s.keyOf j ≠ (s.thread x.i).tmp.key :=
    fun hi j hj hjf => h.distinct j x.i hj hjf hi
  unfold InFlight scanOf Scan.key keyOf at *
  generalize s.thread x.i = th at hmoved hrequest hscan hflight hstart
  generalize (s.step x).thread x.i = th' at hmoved hstart
  cases hmoved with
  | stays => exact ⟨hrequest, hflight⟩
  | named hpc => exact ⟨fun _ => ⟨hstart hpc (by simp), rfl⟩, by simp⟩
  | timed hpc => exact ⟨fun _ => hrequest (by simp [hpc]), by simp⟩
  | hit hpc hcur => exact ⟨fun _ => hrequest (by simp [hpc]), fun _ => hscan hpc⟩
  | missed hpc hcur => exact ⟨fun _ => hrequest (by simp [hpc]), fun _ => hscan hpc⟩
  | finished hpc => rcases hpc with hpc | hpc <;> exact ⟨fun _ => hrequest (by simp [hpc]), by simp⟩
  | _ hpc => exact ⟨fun _ => hrequest (by simp [hpc]), fun _ => hflight (by simp [hpc])⟩

theorem orderly_step {s : Threads lib ι} (h : Orderly s) (x : Move ι) (hx : Alone s x) :
    Orderly (s.step x) := by
  obtain ⟨hrequest, hflight⟩ := h.self x hx
  have hother : ∀ j ≠ x.i, ((s.step x).InFlight j ↔ s.InFlight j) ∧
      (s.step x).keyOf j = s.keyOf j := by
    intro j hj
    unfold InFlight keyOf
    rw [s.step_thread_of_ne x hj]
    exact ⟨Iff.rfl, rfl⟩
  refine ⟨apart_step h.apart x hx.scanAlone, ownTimes_step h.times x hx.time, fun i hi => ?_,
    fun i j hij hi hj => ?_⟩
  · by_cases hix : i = x.i
    · subst hix
      exact hrequest hi
    · unfold scanOf
      rw [s.step_thread_of_ne x hix] at hi ⊢
      exact h.request i hi
  · by_cases hix : i = x.i
    · subst hix
      rw [(hother j hij.symm).2]
      exact (hflight hi j hij.symm ((hother j hij.symm).1.mp hj)).symm
    · rw [(hother i hix).2]
      by_cases hjx : j = x.i
      · subst hjx
        exact hflight hj i hix ((hother i hix).1.mp hi)
      · rw [(hother j hjx).2]
        exact h.distinct i j hij ((hother i hix).1.mp hi) ((hother j hjx).1.mp hj)

/-! ## The store -/

/-- The threads `order` are finished. The store is what their calls make of it, but for the
records that a thread is updating: the rest of its departure makes of them what its call
makes of the record before. -/
structure Serial (s : Threads lib ι) (order : List ι) : Prop where
  nodup : order.Nodup
  mem_iff : ∀ i, i ∈ order ↔ (s.thread i).pc = .finished
  keys : s.server.v.map UserNode.key = (s.reference order).map UserNode.key
  found : ∀ i, s.Updating i → (s.thread i).prev.gen = s.gen ∧
    ∃ r, s.server.v[(s.thread i).prev.pos]? = some r ∧ r.key = s.keyOf i
  rest : ∀ i, s.Updating i → ∀ r r₀, s.server.v[(s.thread i).prev.pos]? = some r →
    (s.reference order)[(s.thread i).prev.pos]? = some r₀ →
    remaining lib (s.thread i) r = departed lib (s.thread i) r₀
  same : ∀ p, (∀ i, s.Updating i → (s.thread i).prev.pos ≠ p) →
    s.server.v[p]? = (s.reference order)[p]?

omit [DecidableEq ι] in
/-- The pair of a request is that of its scan. -/
theorem Orderly.keyOf_eq {s : Threads lib ι} (h : Orderly s) {i : ι}
    (hi : (s.thread i).pc ≠ .start) : s.keyOf i = (s.scanOf i).key := by
  rw [keyOf, (h.request i hi).2]
  rfl

section Serial

variable {s : Threads lib ι} {order : List ι}

omit [DecidableEq ι] in
/-- Two threads update two records. -/
theorem Serial.pos_ne (ho : Orderly s) (h : Serial s order) {i j : ι} (hij : i ≠ j)
    (hi : s.Updating i) (hj : s.Updating j) : (s.thread i).prev.pos ≠ (s.thread j).prev.pos := by
  intro hpos
  obtain ⟨-, r, hr, hkey⟩ := h.found i hi
  obtain ⟨-, r', hr', hkey'⟩ := h.found j hj
  rw [hpos, hr', Option.some.injEq] at hr
  exact ho.distinct i j hij hi.inFlight hj.inFlight (by rw [← hkey, ← hkey', hr])

/-- A finished thread stays what it is. -/
theorem step_thread_of_finished {x : Move ι} {i : ι} (hi : (s.thread i).pc = .finished) :
    (s.step x).thread i = s.thread i := by
  by_cases hix : i = x.i
  · subst hix
    cases hab : s.aborted with
    | true => rw [step_of_aborted x hab]
    | false =>
      rw [step_of_alive x hab]
      simp only [act, hi]
  · exact s.step_thread_of_ne x hix

theorem Serial.reference_step (h : Serial s order) (x : Move ι) :
    (s.step x).reference order = s.reference order := by
  have hscans : order.map (s.step x).scanOf = order.map s.scanOf := by
    refine List.map_congr_left fun i hi => ?_
    unfold scanOf
    rw [step_thread_of_finished ((h.mem_iff i).mp hi)]
  rw [reference, reference, hscans]

theorem updating_of_ne {x : Move ι} (hpc : (s.thread x.i).pc ≠ .arriving) {j : ι}
    (hj : j ≠ x.i) : (s.step x).Updating j ↔ s.Updating j := by
  unfold Updating
  rw [s.step_thread_of_ne x hj, vEnd_step hpc]

/-- What a step that adds no record leaves of the other threads. -/
theorem Serial.others (h : Serial s order) {x : Move ι} (hpc : (s.thread x.i).pc ≠ .arriving)
    {j : ι} (hj : j ≠ x.i) (hjupd : (s.step x).Updating j) :
    s.Updating j ∧ (s.step x).thread j = s.thread j ∧
      (s.thread j).prev.gen = (s.step x).gen ∧
      ∃ r, s.server.v[(s.thread j).prev.pos]? = some r ∧ r.key = (s.step x).keyOf j := by
  have hupd := (updating_of_ne hpc hj).mp hjupd
  obtain ⟨hgen, hr⟩ := h.found j hupd
  refine ⟨hupd, s.step_thread_of_ne x hj, ?_, ?_⟩
  · rw [(s.step_quiet x hpc).2, hgen]
  · unfold keyOf
    rw [s.step_thread_of_ne x hj]
    exact hr

/-- A step of a thread that has no record yet. -/
theorem Serial.quiet (h : Serial s order) {x : Move ι} (hpc : (s.thread x.i).pc ≠ .arriving)
    (hv : (s.step x).server.v = s.server.v) (hold : ¬ s.Updating x.i)
    (hfin : ((s.step x).thread x.i).pc = .finished ↔ (s.thread x.i).pc = .finished)
    (hnew : (s.step x).Updating x.i → ((s.step x).thread x.i).prev.gen = s.gen ∧
      (∃ r, s.server.v[((s.step x).thread x.i).prev.pos]? = some r ∧ r.key = (s.step x).keyOf x.i) ∧
      ∀ r, remaining lib ((s.step x).thread x.i) r = departed lib ((s.step x).thread x.i) r)
    (hfresh : (s.step x).Updating x.i → ∀ j ≠ x.i, s.Updating j →
      (s.thread j).prev.pos ≠ ((s.step x).thread x.i).prev.pos) : Serial (s.step x) order := by
  have hgen := (s.step_quiet x hpc).2
  have href := h.reference_step x
  refine ⟨h.nodup, fun i => ?_, by rw [hv, href, h.keys], fun i hi => ?_,
    fun i hi r r₀ hr hr₀ => ?_, fun p hp => ?_⟩
  · by_cases hix : i = x.i
    · subst hix
      rw [hfin, h.mem_iff]
    · rw [s.step_thread_of_ne x hix, h.mem_iff]
  · rw [hv]
    by_cases hix : i = x.i
    · subst hix
      obtain ⟨hpg, hr, -⟩ := hnew hi
      exact ⟨hpg.trans hgen.symm, hr⟩
    · obtain ⟨-, hth, hpg, hr⟩ := h.others hpc hix hi
      rw [hth]
      exact ⟨hpg, hr⟩
  · rw [hv] at hr
    rw [href] at hr₀
    by_cases hix : i = x.i
    · subst hix
      -- nobody has touched the record, so it is the one of the reference
      have hsame := h.same ((s.step x).thread x.i).prev.pos fun j hj => ?_
      · rw [hr, hr₀, Option.some.injEq] at hsame
        rw [hsame]
        exact (hnew hi).2.2 r₀
      · by_cases hjx : j = x.i
        · exact absurd (hjx ▸ hj) hold
        · exact hfresh hi j hjx hj
    · obtain ⟨hupd, hth, -⟩ := h.others hpc hix hi
      rw [hth] at hr hr₀ ⊢
      exact h.rest i hupd r r₀ hr hr₀
  · rw [hv, href]
    refine h.same p fun j hj => ?_
    have hjx : j ≠ x.i := fun heq => hold (heq ▸ hj)
    have hpj := hp j ((updating_of_ne hpc hjx).mpr hj)
    rwa [s.step_thread_of_ne x hjx] at hpj

/-- A step of a thread with its record. -/
theorem Serial.stored (ho : Orderly s) (h : Serial s order) {x : Move ι}
    (hpc : (s.thread x.i).pc ≠ .arriving) (hold : s.Updating x.i) (hnew : (s.step x).Updating x.i)
    {pc : Pc} (hth : (s.step x).thread x.i = { s.thread x.i with pc := pc })
    {f : UserNode → UserNode} (hkey : ∀ r, (f r).key = r.key)
    (hv : (s.step x).server.v = s.server.v.modify (s.thread x.i).prev.pos f)
    (hrest : ∀ r, s.server.v[(s.thread x.i).prev.pos]? = some r →
      remaining lib ((s.step x).thread x.i) (f r) = remaining lib (s.thread x.i) r) :
    Serial (s.step x) order := by
  have hgen := (s.step_quiet x hpc).2
  have href := h.reference_step x
  have hprev : ((s.step x).thread x.i).prev = (s.thread x.i).prev := by rw [hth]
  have helse : ∀ {p}, p ≠ (s.thread x.i).prev.pos →
      (s.step x).server.v[p]? = s.server.v[p]? := by
    intro p hp
    rw [hv]
    simp [Ne.symm hp]
  have hself : ∀ {r}, s.server.v[(s.thread x.i).prev.pos]? = some r →
      (s.step x).server.v[(s.thread x.i).prev.pos]? = some (f r) := by
    intro r hr
    rw [hv]
    simp [hr]
  refine ⟨h.nodup, fun i => ?_, by rw [(s.step_quiet x hpc).1, href, h.keys], fun i hi => ?_,
    fun i hi r r₀ hr hr₀ => ?_, fun p hp => ?_⟩
  · by_cases hix : i = x.i
    · subst hix
      rw [h.mem_iff]
      exact iff_of_false hold.ne_finished hnew.ne_finished
    · rw [s.step_thread_of_ne x hix, h.mem_iff]
  · by_cases hix : i = x.i
    · subst hix
      obtain ⟨hpg, r, hr, hrkey⟩ := h.found x.i hold
      rw [hprev, hgen]
      refine ⟨hpg, f r, hself hr, ?_⟩
      unfold keyOf at hrkey ⊢
      rw [hkey, hrkey, hth]
    · obtain ⟨hupd, hthi, hpg, r, hr, hrkey⟩ := h.others hpc hix hi
      rw [hthi]
      exact ⟨hpg, r, by rw [helse (h.pos_ne ho hix hupd hold), hr], hrkey⟩
  · rw [href] at hr₀
    by_cases hix : i = x.i
    · subst hix
      rw [hprev] at hr hr₀
      obtain ⟨-, r', hr', -⟩ := h.found x.i hold
      rw [hself hr', Option.some.injEq] at hr
      subst hr
      rw [hrest r' hr', h.rest x.i hold r' r₀ hr' hr₀, hth]
      rfl
    · obtain ⟨hupd, hthi, -⟩ := h.others hpc hix hi
      rw [hthi] at hr hr₀ ⊢
      rw [helse (h.pos_ne ho hix hupd hold)] at hr
      exact h.rest i hupd r r₀ hr hr₀
  · have hpx := hp x.i hnew
    rw [hprev] at hpx
    rw [helse (Ne.symm hpx), href]
    refine h.same p fun j hj => ?_
    by_cases hjx : j = x.i
    · rw [hjx]
      exact hpx
    · have hpj := hp j ((updating_of_ne hpc hjx).mpr hj)
      rwa [s.step_thread_of_ne x hjx] at hpj

omit [DecidableEq ι] in
theorem reference_concat (s : Threads lib ι) (order : List ι) (i : ι) :
    s.reference (order ++ [i]) = (attendance lib).upsert (s.reference order) (s.scanOf i) := by
  rw [reference, List.map_append, List.foldl_append]
  rfl

theorem Serial.mem_concat_iff (h : Serial s order) {x : Move ι}
    (hfin : ((s.step x).thread x.i).pc = .finished) (i : ι) :
    i ∈ order ++ [x.i] ↔ ((s.step x).thread i).pc = .finished := by
  rw [List.mem_append, List.mem_singleton, h.mem_iff]
  by_cases hix : i = x.i
  · subst hix
    simp [hfin]
  · rw [s.step_thread_of_ne x hix]
    simp [hix]

omit [DecidableEq ι] in
theorem Serial.nodup_concat (h : Serial s order) {i : ι} (hi : (s.thread i).pc ≠ .finished) :
    (order ++ [i]).Nodup := by
  rw [List.nodup_append]
  refine ⟨h.nodup, by simp, ?_⟩
  rintro a ha c hc rfl
  rw [List.mem_singleton] at hc
  exact hi ((h.mem_iff i).mp (hc ▸ ha))

/-- The end of a departure. -/
theorem Serial.departs (ho : Orderly s) (h : Serial s order) {x : Move ι}
    (hpc : (s.thread x.i).pc = .carrying)
    (hstep : s.step x = s.put x.i { s.thread x.i with pc := .finished }) {r : UserNode}
    (hr : s.server.v[(s.thread x.i).prev.pos]? = some r) (hsec : ¬ r.sec ≥ 60) :
    Serial (s.step x) (order ++ [x.i]) := by
  have hne : (s.thread x.i).pc ≠ .arriving := by simp [hpc]
  have hold : s.Updating x.i := by simp [Updating, hpc]
  have hfin : ((s.step x).thread x.i).pc = .finished := by simp [hstep]
  have hv : (s.step x).server.v = s.server.v := by simp [hstep]
  obtain ⟨-, r', hr', hrkey⟩ := h.found x.i hold
  obtain rfl := Option.some.inj (hr.symm.trans hr')
  -- the record of the reference, and what the call makes of it
  obtain ⟨r₀, hr₀⟩ : ∃ r₀, (s.reference order)[(s.thread x.i).prev.pos]? = some r₀ := by
    have hkeys := congrArg (·[(s.thread x.i).prev.pos]?) h.keys
    simp only [List.getElem?_map, hr, Option.map_some] at hkeys
    obtain ⟨r₀, hr₀, -⟩ := Option.map_eq_some_iff.mp hkeys.symm
    exact ⟨r₀, hr₀⟩
  have hdeparted : departed lib (s.thread x.i) r₀ = r := by
    have hrest := h.rest x.i hold r r₀ hr hr₀
    rw [← hrest, remaining, hpc]
    dsimp only
    rw [workTimeLoop, if_neg hsec]
  have hrkey₀ : r₀.key = (s.scanOf x.i).key := by
    rw [← ho.keyOf_eq (by simp [hpc]), ← hrkey, ← hdeparted]
    exact (depart_key lib _ _ r₀).symm
  have hscan : (s.step x).scanOf x.i = s.scanOf x.i := by
    simp [scanOf, hstep]
  have hnodup : ((s.reference order).map UserNode.key).Nodup := h.keys ▸ ho.apart.nodup
  have href : (s.step x).reference (order ++ [x.i]) =
      (s.reference order).modify (s.thread x.i).prev.pos (departed lib (s.thread x.i)) := by
    rw [reference_concat, h.reference_step, hscan]
    exact (attendance lib).upsert_of_getElem? hnodup hr₀ hrkey₀
  have helse : ∀ {p}, p ≠ (s.thread x.i).prev.pos →
      ((s.step x).reference (order ++ [x.i]))[p]? = (s.reference order)[p]? := by
    intro p hp
    rw [href]
    simp [Ne.symm hp]
  refine ⟨h.nodup_concat (by simp [hpc]), h.mem_concat_iff hfin, ?_, fun i hi => ?_,
    fun i hi r r₀ hr hr₀ => ?_, fun p hp => ?_⟩
  · have hkeys : (s.reference order).modify (s.thread x.i).prev.pos (departed lib (s.thread x.i)) =
        (attendance lib).upsert (s.reference order) (s.scanOf x.i) :=
      ((attendance lib).upsert_of_getElem? hnodup hr₀ hrkey₀).symm
    have hmem : (s.scanOf x.i).key ∈ (s.reference order).map UserNode.key :=
      hrkey₀ ▸ List.mem_map_of_mem (List.mem_of_getElem? hr₀)
    rw [hv, h.keys, href, hkeys]
    exact (((attendance lib).keys_upsert _ _).trans (if_pos hmem)).symm
  · have hix : i ≠ x.i := by
      rintro rfl
      exact hi.ne_finished hfin
    obtain ⟨-, hthi, hpg, hr⟩ := h.others hne hix hi
    rw [hthi, hv]
    exact ⟨hpg, hr⟩
  · have hix : i ≠ x.i := by
      rintro rfl
      exact hi.ne_finished hfin
    obtain ⟨hupd, hthi, -⟩ := h.others hne hix hi
    rw [hthi] at hr hr₀ ⊢
    rw [helse (h.pos_ne ho hix hupd hold)] at hr₀
    exact h.rest i hupd r r₀ (hv ▸ hr) hr₀
  · rw [hv]
    by_cases hpx : p = (s.thread x.i).prev.pos
    · subst hpx
      rw [hr, href]
      simp [hr₀, hdeparted]
    · rw [helse hpx]
      refine h.same p fun j hj => ?_
      by_cases hjx : j = x.i
      · rw [hjx]
        exact Ne.symm hpx
      · have hpj := hp j ((updating_of_ne hne hjx).mpr hj)
        rwa [s.step_thread_of_ne x hjx] at hpj

/-- An arrival. -/
theorem Serial.arrives (ho : Orderly s) (h : Serial s order) {x : Move ι} (hx : Alone s x)
    (hab : s.aborted = false) (hpc : (s.thread x.i).pc = .arriving) :
    Serial (s.step x) (order ++ [x.i]) := by
  have hrequest := ho.request x.i (by simp [hpc])
  have hstep : s.step x = { s with
      server := { s.server with v := s.server.v ++ [(attendance lib).create (s.scanOf x.i)] },
      gen := if x.moved then s.gen + 1 else s.gen }.put x.i
        { s.thread x.i with pc := .finished } := by
    have htm := ho.times.tm_eq x.i (by simp [HoldsTm, hpc])
    have htext := ho.times.text_eq x.i (by simp [hpc]) (by simp [hpc])
    rw [step_of_alive x hab]
    simp only [act, hpc, htm, htext, hrequest.2]
    rfl
  have hfin : ((s.step x).thread x.i).pc = .finished := by simp [hstep]
  have hscan : (s.step x).scanOf x.i = s.scanOf x.i := by
    simp [scanOf, hstep]
  have hv : (s.step x).server.v = s.server.v ++ [(attendance lib).create (s.scanOf x.i)] := by
    simp [hstep]
  have habsent : (s.scanOf x.i).key ∉ (s.reference order).map UserNode.key := by
    rw [← h.keys, ← ho.keyOf_eq (by simp [hpc])]
    exact ho.apart.absent x.i (by simp [Pending, hpc])
  have href : (s.step x).reference (order ++ [x.i]) =
      s.reference order ++ [(attendance lib).create (s.scanOf x.i)] := by
    rw [reference_concat, h.reference_step, hscan]
    exact (attendance lib).upsert_of_notMem habsent
  have hlen : s.server.v.length = (s.reference order).length := by
    simpa using congrArg List.length h.keys
  have hlt : ∀ j, s.Updating j → (s.thread j).prev.pos < s.server.v.length := by
    intro j hj
    obtain ⟨-, r, hr, -⟩ := h.found j hj
    exact (List.getElem?_eq_some_iff.mp hr).1
  have hother : ∀ j, (s.step x).Updating j → (s.step x).thread j = s.thread j ∧ s.Updating j ∧
      (s.step x).gen = s.gen := by
    intro j hj
    have hjx : j ≠ x.i := by
      rintro rfl
      exact hj.ne_finished hfin
    have hth := s.step_thread_of_ne x hjx
    obtain ⟨hend, hmoved⟩ := hx.push hpc j hjx (by
      have hholds := hj.holdsIter
      unfold HoldsIter at hholds ⊢
      rwa [hth] at hholds)
    refine ⟨hth, ?_, by simp [hstep, hmoved]⟩
    unfold Updating at hj ⊢
    rw [hth] at hj
    cases hpcj : (s.thread j).pc <;> simp only [hpcj] at hj ⊢
    exact hend
  have hback : ∀ j, s.Updating j → (s.step x).Updating j := by
    intro j hj
    have hjx : j ≠ x.i := by
      rintro rfl
      simp [Updating, hpc] at hj
    have hpos := hlt j hj
    unfold Updating at hj ⊢
    rw [s.step_thread_of_ne x hjx]
    cases hpcj : (s.thread j).pc <;> simp only [hpcj] at hj ⊢
    -- the end has moved on behind the record
    intro heq
    have hend := congrArg Iter.pos heq
    rw [vEnd, hv] at hend
    simp only [List.length_append, List.length_singleton] at hend
    omega
  refine ⟨h.nodup_concat (by simp [hpc]), h.mem_concat_iff hfin, ?_, fun i hi => ?_,
    fun i hi r r₀ hr hr₀ => ?_, fun p hp => ?_⟩
  · rw [hv, href, List.map_append, List.map_append, h.keys]
  · obtain ⟨hthi, hupd, hgen⟩ := hother i hi
    obtain ⟨hpg, r, hr, hrkey⟩ := h.found i hupd
    unfold keyOf at hrkey ⊢
    rw [hthi, hgen, hv]
    exact ⟨hpg, r, by rw [List.getElem?_append_left (hlt i hupd), hr], hrkey⟩
  · obtain ⟨hthi, hupd, hgen⟩ := hother i hi
    rw [hthi] at hr hr₀ ⊢
    rw [hv, List.getElem?_append_left (hlt i hupd)] at hr
    rw [href, List.getElem?_append_left (hlen ▸ hlt i hupd)] at hr₀
    exact h.rest i hupd r r₀ hr hr₀
  · rw [hv, href]
    by_cases hp' : p < s.server.v.length
    · rw [List.getElem?_append_left hp', List.getElem?_append_left (hlen ▸ hp')]
      refine h.same p fun j hj => ?_
      have hpj := hp j (hback j hj)
      rwa [(hother j (hback j hj)).1] at hpj
    · rw [List.getElem?_append_right (not_lt.mp hp'),
        List.getElem?_append_right (hlen ▸ not_lt.mp hp'), hlen]

/-- The scan stops at a record of its pair. -/
theorem findScan_getElem? {head : UserNode} {v : List UserNode}
    (h : findScan head v ≠ v.length) : ∃ r, v[findScan head v]? = some r ∧ r.key = head.key := by
  have hlt : findScan head v < v.length := by
    have hle : findScan head v ≤ v.length := List.findIdx_le_length
    omega
  have hfound := List.findIdx_getElem (w := hlt)
  rw [decide_eq_true_eq] at hfound
  exact ⟨v[findScan head v], List.getElem?_eq_getElem hlt, Prod.ext hfound.2 hfound.1⟩

omit [DecidableEq ι] in
theorem store_v {it : Iter} (h : it.gen = s.gen) (f : UserNode → UserNode) :
    (s.store it f).server.v = s.server.v.modify it.pos f := by
  rw [store, if_pos h]

/-- A step of a thread that has no record and finds none. -/
theorem Serial.idle (h : Serial s order) {x : Move ι} (hpc : (s.thread x.i).pc ≠ .arriving)
    (hv : (s.step x).server.v = s.server.v) (hold : ¬ s.Updating x.i)
    (hnew : ¬ (s.step x).Updating x.i)
    (hfin : ((s.step x).thread x.i).pc = .finished ↔ (s.thread x.i).pc = .finished) :
    Serial (s.step x) order :=
  h.quiet hpc hv hold hfin (fun hi => absurd hi hnew) fun hi => absurd hi hnew

/-- The scan of a thread of whose pair there is a record. -/
theorem Serial.hits (h : Serial s order) {x : Move ι} (hx : Alone s x)
    (hpc : (s.thread x.i).pc = .timed)
    (hcur : findScan (s.thread x.i).tmp s.server.v ≠ s.server.v.length)
    (hstep : s.step x = s.put x.i { s.thread x.i with
      pc := .returned, prev := ⟨s.gen, findScan (s.thread x.i).tmp s.server.v⟩ }) :
    Serial (s.step x) order := by
  obtain ⟨r, hr, hrkey⟩ := findScan_getElem? hcur
  refine h.quiet (by simp [hpc]) (by simp [hstep]) (by simp [Updating, hpc]) (by simp [hstep, hpc])
    (fun _ => ⟨by simp [hstep], ⟨r, by simpa [hstep] using hr, ?_⟩, fun r => ?_⟩)
    fun _ j hj hjupd hpos => ?_
  · simpa [keyOf, hstep] using hrkey
  · rw [remaining, hstep, put_thread_self]
  · -- the record another thread is updating is that of another pair
    obtain ⟨-, r', hr', hrkey'⟩ := h.found j hjupd
    rw [hpos, hstep, put_thread_self, hr, Option.some.injEq] at hr'
    exact hx.scan hpc j hj hjupd.inFlight (by rw [← hrkey', ← hr', hrkey]; rfl)

/-- A statement that writes to the record. -/
theorem Serial.writes (ho : Orderly s) (h : Serial s order) {x : Move ι} (hold : s.Updating x.i)
    {pc : Pc} (hpc : pc ∈ [.stamped, .leaving, .carrying]) {f : UserNode → UserNode}
    (hkey : ∀ r, (f r).key = r.key)
    (hstep : s.step x = (s.store (s.thread x.i).prev f).put x.i { s.thread x.i with pc := pc })
    (hrest : ∀ r, remaining lib { s.thread x.i with pc := pc } (f r) =
      remaining lib (s.thread x.i) r) : Serial (s.step x) order := by
  have hne : (s.thread x.i).pc ≠ .arriving := by
    intro harr
    simp [Updating, harr] at hold
  have hth : (s.step x).thread x.i = { s.thread x.i with pc := pc } := by
    rw [hstep, put_thread_self]
  have hnew : (s.step x).Updating x.i := by
    rw [Updating, hth]
    simp only [List.mem_cons, List.not_mem_nil, or_false] at hpc
    rcases hpc with rfl | rfl | rfl <;> trivial
  refine h.stored ho hne hold hnew hth hkey ?_ fun r _ => by rw [hth, hrest]
  rw [hstep, put_server, store_v (h.found x.i hold).1]

/-- **The step.** -/
theorem serial_step (ho : Orderly s) (h : Serial s order) (x : Move ι) (hx : Alone s x) :
    Serial (s.step x) (if (s.thread x.i).pc ≠ .finished ∧ ((s.step x).thread x.i).pc = .finished
      then order ++ [x.i] else order) := by
  cases hab : s.aborted with
  | true =>
    rw [step_of_aborted x hab, if_neg fun hfin => hfin.1 hfin.2]
    exact h
  | false =>
    have hstep := step_of_alive x hab
    cases hpc : (s.thread x.i).pc <;> simp only [act, hpc] at hstep
    case start =>
      have hnot : ((s.step x).thread x.i).pc = .start ∨ ((s.step x).thread x.i).pc = .named := by
        rw [hstep]
        split_ifs <;> simp [hpc]
      have hserver : (s.step x).server = s.server := by
        rw [hstep]
        split_ifs <;> rfl
      have hfin : ((s.step x).thread x.i).pc ≠ .finished := by
        rcases hnot with hnot | hnot <;> simp [hnot]
      rw [if_neg fun hand => hfin hand.2]
      exact h.idle (by simp [hpc]) (by rw [hserver]) (by simp [Updating, hpc])
        (by unfold Updating; rcases hnot with hnot | hnot <;> simp [hnot]) (by simp [hfin, hpc])
    case timed =>
      by_cases hcur : findScan (s.thread x.i).tmp s.server.v ≠ s.server.v.length
      · rw [if_pos hcur] at hstep
        rw [if_neg (by simp [hstep])]
        exact h.hits hx hpc hcur hstep
      · rw [if_neg hcur] at hstep
        rw [if_neg (by simp [hstep])]
        exact h.idle (by simp [hpc]) (by simp [hstep]) (by simp [Updating, hpc])
          (by simp [Updating, hstep]) (by simp [hstep, hpc])
    case returned =>
      rw [if_neg (by rw [hstep]; split_ifs <;> simp)]
      by_cases hend : (s.thread x.i).prev ≠ s.vEnd
      · rw [if_pos hend] at hstep
        refine h.stored ho (by simp [hpc]) (by simpa [Updating, hpc] using hend)
          (by simp [Updating, hstep]) (hstep ▸ put_thread_self s x.i _) (f := id) (fun _ => rfl)
          (by simp [hstep]) fun r _ => ?_
        rw [remaining, remaining, hstep, put_thread_self, hpc]
        rfl
      · rw [if_neg hend] at hstep
        exact h.idle (by simp [hpc]) (by simp [hstep]) (by simpa [Updating, hpc] using hend)
          (by simp [Updating, hstep]) (by simp [hstep, hpc])
    case departing =>
      have htm := ho.times.tm_eq x.i (by simp [HoldsTm, hpc])
      rw [if_neg (by simp [hstep])]
      refine h.writes ho (by simp [Updating, hpc]) (by simp) ?_ hstep fun r => ?_
      · exact fun _ => rfl
      · rw [remaining, remaining, hpc, htm]
        rfl
    case stamped =>
      have htext := ho.times.text_eq x.i (by simp [hpc]) (by simp [hpc])
      rw [if_neg (by simp [hstep])]
      refine h.writes ho (by simp [Updating, hpc]) (by simp) ?_ hstep fun r => ?_
      · exact fun _ => rfl
      · rw [remaining, remaining, hpc, htext]
    case leaving =>
      rw [if_neg (by simp [hstep])]
      refine h.writes ho (by simp [Updating, hpc]) (by simp) ?_ hstep fun r => ?_
      · exact fun _ => rfl
      · rw [remaining, remaining, hpc]
        rfl
    case carrying =>
      have hold : s.Updating x.i := by simp [Updating, hpc]
      obtain ⟨hgen, r, hr, -⟩ := h.found x.i hold
      rw [deref, if_pos hgen, hr] at hstep
      dsimp only at hstep
      by_cases hsec : r.sec ≥ 60
      · rw [if_pos hsec] at hstep
        have hth : (s.step x).thread x.i = s.thread x.i := by rw [hstep, store_thread]
        have hnew : (s.step x).Updating x.i := by simp [Updating, hth, hpc]
        rw [if_neg (by simp [hth, hpc])]
        have hsame : (s.step x).thread x.i = { s.thread x.i with pc := .carrying } := by
          rw [hth, ← hpc]
        refine h.stored ho (by simp [hpc]) hold hnew hsame workTimeTurn_key
          (by rw [hstep, store_v hgen]) fun r' hr' => ?_
        obtain rfl := Option.some.inj (hr.symm.trans hr')
        rw [remaining, remaining, hth, hpc]
        dsimp only
        rw [workTimeLoop.eq_1 r, if_pos hsec]
      · rw [if_neg hsec] at hstep
        rw [if_pos (by simp [hstep])]
        exact h.departs ho hpc hstep hr hsec
    case arriving =>
      have hpc' : ((s.step x).thread x.i).pc = .finished := (step_push hab hpc).2.2.2
      rw [if_pos ⟨by simp, hpc'⟩]
      exact h.arrives ho hx hab hpc
    case finished =>
      rw [if_neg (by simp), hstep]
      exact h
    all_goals
      rw [if_neg (by simp [hstep])]
      exact h.idle (by simp [hpc]) (by simp [hstep]) (by simp [Updating, hpc])
        (by simp [Updating, hstep]) (by simp [hstep, hpc])

end Serial

/-! ## Runs -/

omit [DecidableEq ι] in
theorem orderly_init (tm : lib.Tm) (query : ι → Bytes) : Orderly (init lib tm query) := by
  refine ⟨apart_init tm query, ownTimes_init tm query, fun i hi => absurd rfl hi,
    fun i j _ hi => ?_⟩
  simp [InFlight, init, Thread.enter] at hi

omit [DecidableEq ι] in
theorem serial_init (tm : lib.Tm) (query : ι → Bytes) : Serial (init lib tm query) [] := by
  have hnot : ∀ i, ¬ (init lib tm query).Updating i := by simp [Updating, init, Thread.enter]
  exact ⟨List.nodup_nil, by simp [init, Thread.enter], rfl, fun i hi => absurd hi (hnot i),
    fun i hi => absurd hi (hnot i), fun _ _ => rfl⟩

theorem serial_run {s : Threads lib ι} {order : List ι} (ho : Orderly s) (h : Serial s order)
    (moves : List (Move ι)) (hm : Runs.Along step Alone s moves) :
    Serial (s.run moves) (order ++ finishOrder s moves) := by
  induction moves generalizing s order with
  | nil =>
    rw [finishOrder, List.append_nil]
    exact h
  | cons x moves ih =>
    have hstep := ih (orderly_step ho x hm.1) (serial_step ho h x hm.1) hm.2
    rw [finishOrder]
    split_ifs at hstep ⊢
    · rwa [List.append_assoc] at hstep
    · exact hstep

omit [DecidableEq ι] in
/-- Between requests the store is the one of the calls. -/
theorem Serial.store_eq {s : Threads lib ι} {order : List ι} (h : Serial s order)
    (hidle : ∀ i, ¬ s.InFlight i) : s.server.v = s.reference order :=
  List.ext_getElem? fun p => h.same p fun i hi => absurd hi.inFlight (hidle i)

/-- **Requests one after another.** In every run whose steps meet `Alone`, once no request
is under way the store and the counter are those of the requests taken one at a time, in
the order in which they finished. -/
theorem serializable [Fintype ι] (lib : TimeLib) (tm : lib.Tm) (query : ι → Bytes)
    (moves : List (Move ι)) (hm : Runs.Along step Alone (init lib tm query) moves)
    (hidle : ∀ i, ¬ ((init lib tm query).run moves).InFlight i) :
    sendVectors lib ((finishOrder (init lib tm query) moves).map
        ((init lib tm query).run moves).scanOf) = some ((init lib tm query).run moves).server ∧
      (finishOrder (init lib tm query) moves).Nodup ∧
      ∀ i, i ∈ finishOrder (init lib tm query) moves ↔
        (((init lib tm query).run moves).thread i).pc = .finished := by
  have hserial := serial_run (orderly_init tm query) (serial_init tm query) moves hm
  have horderly : Orderly ((init lib tm query).run moves) :=
    Runs.inv_foldl_of_along Orderly (fun _ x hs hx => orderly_step hs x hx) moves _
      (orderly_init tm query) hm
  have hcounted : Counted query ((init lib tm query).run moves) :=
    Runs.inv_foldl_of_along (Counted query) (fun _ x hs hx => counted_step hs x hx.pushAlone)
      moves _ (counted_init tm query) hm
  rw [List.nil_append] at hserial
  refine ⟨?_, hserial.nodup, hserial.mem_iff⟩
  generalize (init lib tm query).run moves = s at *
  generalize finishOrder (init lib tm query) moves = order at *
  have hq : ∀ c ∈ order.map s.scanOf, strlen c.query > 0 := by
    intro c hc
    obtain ⟨i, hi, rfl⟩ := List.mem_map.mp hc
    have hfin := (hserial.mem_iff i).mp hi
    exact (horderly.request i (by simp [hfin])).1
  have hnone : s.inBetween = ∅ := by
    ext i
    simp only [mem_inBetween, Finset.notMem_empty, iff_false]
    intro hi
    refine hidle i ?_
    unfold InBetween at hi
    unfold InFlight
    cases hpc : (s.thread i).pc <;> simp [hpc] at hi ⊢
  have hv := hserial.store_eq hidle
  have hsize := hcounted.size_eq
  rw [hnone, Finset.card_empty, Nat.add_zero] at hsize
  have hlen : (KeyedLog.order ((order.map s.scanOf).map Scan.key)).length = s.server.v.length := by
    rw [hv, ← List.length_map (f := UserNode.key)]
    exact congrArg List.length ((attendance lib).keys_foldl_upsert _).symm
  rw [sendVectors_eq lib _ hq, hlen, ← hsize, Option.some.injEq]
  show ServerHttp.mk _ (s.reference order) = s.server
  rw [← hv]

/-- Who stands before the camera: three people, one more, and the first again. -/
def atTheDoor : Fin 3 ⊕ Bool → Bytes
  | .inl i => [bytes "name=ann&id=1", bytes "name=bob&id=2", bytes "name=cid&id=3"].get i
  | .inr false => bytes "name=dan&id=4"
  | .inr true => bytes "name=ann&id=1"

/-- Three arrivals, which leave room for a fourth record; then an arrival and a departure at
the same time. -/
def meeting : List (Move (Fin 3 ⊕ Bool)) :=
  ((List.finRange 3).flatMap fun i => List.replicate 7 ⟨.inl i, 7, true⟩) ++
    ([false, true, false, true, true, true, false, false, false, false, true, true, false, true,
      true, true].map fun b => ⟨.inr b, 100, false⟩)

theorem serializable_example :
    sendVectors TimeLib.utc ((finishOrder (init TimeLib.utc (0 : ℤ) atTheDoor) meeting).map
        ((init TimeLib.utc (0 : ℤ) atTheDoor).run meeting).scanOf) =
      some ((init TimeLib.utc (0 : ℤ) atTheDoor).run meeting).server :=
  (serializable TimeLib.utc (0 : ℤ) atTheDoor meeting (by decide +kernel) (by decide +kernel)).1

end FacePerception.Server.Threads
