import FacePerception.Server.OneRecord
import Mathlib.Data.Fintype.Card

/-!
# The counter and the records, in many threads

`find_id` counts a record in `size` that `send_vector` adds to `v` only later, and
only if `prev` is still `v.end()` when it looks (`server/server_http.h`, lines
107–110 and 560).

Results:
* `counted_of_pushAlone`: `size` is the number of records and of the requests
  between the two, and no check-in is lost, in every run in which no thread runs
  `push_back` while another stands between its `return v.end()` and that look.
* `two_threads_lost`: a run that breaks the condition and loses a check-in.
-/

namespace FacePerception.Server.Threads

open CString

variable {lib : TimeLib} {ι : Type}

/-! ## Requests in between -/

/-- Thread `i` has incremented `size` and is on its way to `push_back`. -/
def InBetween (s : Threads lib ι) (i : ι) : Prop :=
  match (s.thread i).pc with
  | .counted | .arriving => True
  | .returned => (s.thread i).prev = s.vEnd
  | _ => False

instance decidableInBetween (s : Threads lib ι) (i : ι) : Decidable (s.InBetween i) :=
  decidable_of_iff ((s.thread i).pc ∈ [.counted, .arriving] ∨
      (s.thread i).pc = .returned ∧ (s.thread i).prev = s.vEnd) (by
    unfold InBetween
    cases (s.thread i).pc <;> simp)

/-- The threads in between. -/
def inBetween [Fintype ι] (s : Threads lib ι) : Finset ι := Finset.univ.filter s.InBetween

@[simp] theorem mem_inBetween [Fintype ι] (s : Threads lib ι) (i : ι) :
    i ∈ s.inBetween ↔ s.InBetween i := by
  simp [inBetween]

variable [DecidableEq ι]

/-- If `x` is a `push_back`, no other thread stands between its `return v.end()` and
its test `prev !=v.end()`. -/
def PushAlone (s : Threads lib ι) (x : Move ι) : Prop :=
  (s.thread x.i).pc = .arriving →
    ∀ j ≠ x.i, (s.thread j).pc = .returned → (s.thread j).prev ≠ s.vEnd

instance decidablePushAlone [Fintype ι] (s : Threads lib ι) (x : Move ι) :
    Decidable (PushAlone s x) :=
  inferInstanceAs (Decidable (_ → ∀ j, j ≠ x.i → _ → (s.thread j).prev ≠ s.vEnd))

omit [DecidableEq ι] in
theorem store_size (s : Threads lib ι) (it : Iter) (f : UserNode → UserNode) :
    (s.store it f).server.size = s.server.size := by
  unfold store
  split_ifs <;> rfl

/-- What a step that adds no record does to another thread: nothing. -/
theorem inBetween_of_ne {s : Threads lib ι} {x : Move ι} (hpc : (s.thread x.i).pc ≠ .arriving)
    {j : ι} (hj : j ≠ x.i) : (s.step x).InBetween j ↔ s.InBetween j := by
  unfold InBetween
  rw [s.step_thread_of_ne x hj, vEnd_step hpc]

/-- A thread gets in between at its `size++` and leaves at its `push_back` only. -/
theorem inBetween_self {s : Threads lib ι} {x : Move ι} (hmissed : (s.thread x.i).pc ≠ .missed)
    (hpc : (s.thread x.i).pc ≠ .arriving) : (s.step x).InBetween x.i ↔ s.InBetween x.i := by
  have hmoved := s.step_moved x
  unfold InBetween
  rw [vEnd_step hpc]
  generalize s.thread x.i = th at hmoved hmissed hpc
  generalize (s.step x).thread x.i = th' at hmoved
  cases hmoved with
  | stays => rfl
  | hit h hcur => simp [h, vEnd, hcur]
  | counted h => exact absurd h hmissed
  | departing h hend => simp [h, hend]
  | arriving h hend => simp [h, hend]
  | finished h =>
    rcases h with h | h
    · simp [h]
    · exact absurd h hpc
  | _ h => simp [h]

theorem step_size (s : Threads lib ι) (x : Move ι) (hmissed : (s.thread x.i).pc ≠ .missed) :
    (s.step x).server.size = s.server.size := by
  have hchanged := s.step_changed x
  generalize (s.step x).server = server, (s.step x).gen = gen, (s.step x).tm = tm at hchanged ⊢
  cases hchanged with
  | count h => exact absurd h hmissed
  | record it => exact s.store_size it _
  | _ => rfl

/-! ## The invariant -/

/-- Thread `i` has found a record of its pair, or made one. -/
def Recorded (s : Threads lib ι) (i : ι) : Prop :=
  match (s.thread i).pc with
  | .departing | .stamped | .leaving | .carrying | .finished => True
  | .returned => (s.thread i).prev ≠ s.vEnd
  | _ => False

/-- What `size` counts, and what no thread loses, while threads interleave. -/
structure Counted [Fintype ι] (query : ι → Bytes) (s : Threads lib ι) : Prop where
  size_eq : s.server.size = s.server.v.length + s.inBetween.card
  iter : ∀ i, (s.thread i).pc = .returned →
    (s.thread i).prev = s.vEnd ∨ (s.thread i).prev.pos < s.server.v.length
  query_eq : ∀ i, (s.thread i).query = query i
  key_eq : ∀ i, (s.thread i).pc ≠ .start → s.keyOf i = getString (query i)
  recorded : ∀ i, s.Recorded i → s.keyOf i ∈ s.server.v.map UserNode.key

/-- Every step but the first keeps the pair. -/
theorem step_keyOf (s : Threads lib ι) (x : Move ι) (hpc : ((s.step x).thread x.i).pc ≠ .start) :
    (s.step x).keyOf x.i =
      if (s.thread x.i).pc = .start then getString (s.thread x.i).query else s.keyOf x.i := by
  have hmoved := s.step_moved x
  unfold keyOf
  generalize s.thread x.i = th at hmoved
  generalize (s.step x).thread x.i = th' at hmoved hpc
  cases hmoved with
  | stays => exact (if_neg hpc).symm
  | named h => exact (if_pos h).symm
  | finished h => rcases h with h | h <;> simp [h]
  | _ h => simp [h]

variable [Fintype ι] {query : ι → Bytes}

theorem Counted.request {s : Threads lib ι} (h : Counted query s) (x : Move ι) (i : ι)
    (hpc : ((s.step x).thread i).pc ≠ .start) : (s.step x).keyOf i = getString (query i) := by
  by_cases hi : i = x.i
  · subst hi
    rw [s.step_keyOf x hpc]
    split_ifs with hstart
    · rw [h.query_eq]
    · exact h.key_eq _ hstart
  · have hth := s.step_thread_of_ne x hi
    rw [hth] at hpc
    rw [keyOf, hth]
    exact h.key_eq i hpc

/-- What a scan, a comparison or the end of the carry loop makes of the thread. -/
theorem Counted.self {s : Threads lib ι} (h : Counted query s) (x : Move ι)
    (hpc : (s.thread x.i).pc ≠ .arriving) :
    (((s.step x).thread x.i).pc = .returned → ((s.step x).thread x.i).prev = s.vEnd ∨
        ((s.step x).thread x.i).prev.pos < s.server.v.length) ∧
      ((s.step x).Recorded x.i → (s.step x).keyOf x.i ∈ s.server.v.map UserNode.key) := by
  have hmoved := s.step_moved x
  have hiter := h.iter x.i
  have hrecorded := h.recorded x.i
  unfold Recorded keyOf at hrecorded ⊢
  rw [vEnd_step hpc]
  generalize s.thread x.i = th at hmoved hiter hrecorded hpc
  generalize (s.step x).thread x.i = th' at hmoved
  cases hmoved with
  | stays => exact ⟨hiter, hrecorded⟩
  | hit h hcur =>
    have hle : findScan th.tmp s.server.v ≤ s.server.v.length := List.findIdx_le_length
    refine ⟨fun _ => Or.inr (by dsimp only; omega), fun _ => ?_⟩
    by_contra hkey
    exact hcur (findScan_eq_length_of_notMem hkey)
  | departing h hend => exact ⟨by simp, fun _ => hrecorded (by simp [h, hend])⟩
  | finished h =>
    rcases h with h | h
    · exact ⟨by simp, fun _ => hrecorded (by simp [h])⟩
    · exact absurd h hpc
  | stamped h => exact ⟨by simp, fun _ => hrecorded (by simp [h])⟩
  | leaving h => exact ⟨by simp, fun _ => hrecorded (by simp [h])⟩
  | carrying h => exact ⟨by simp, fun _ => hrecorded (by simp [h])⟩
  | _ h => simp

/-- A step that adds no record. -/
theorem Counted.quiet {s : Threads lib ι} (h : Counted query s) (x : Move ι)
    (hab : s.aborted = false) (hpc : (s.thread x.i).pc ≠ .arriving) :
    Counted query (s.step x) := by
  have hkeys := (s.step_quiet x hpc).1
  have hlen := length_step hpc
  obtain ⟨hiter, hrecorded⟩ := h.self x hpc
  refine ⟨?_, fun i hi => ?_, fun i => (s.step_query x i).trans (h.query_eq i),
    h.request x, fun i hi => ?_⟩
  · rw [hlen]
    by_cases hmissed : (s.thread x.i).pc = .missed
    · -- `size++`: the thread gets in between
      have hself : (s.step x).server.size = s.server.size + 1 ∧ (s.step x).InBetween x.i := by
        rw [step_of_alive x hab]
        simp [act, hmissed, InBetween]
      have hset : (s.step x).inBetween = insert x.i s.inBetween := by
        ext i
        rw [Finset.mem_insert, mem_inBetween, mem_inBetween]
        by_cases hi : i = x.i
        · simp [hi, hself.2]
        · simp [hi, inBetween_of_ne hpc hi]
      have hnot : x.i ∉ s.inBetween := by simp [InBetween, hmissed]
      rw [hself.1, hset, Finset.card_insert_of_notMem hnot, h.size_eq]
      omega
    · have hset : (s.step x).inBetween = s.inBetween := by
        ext i
        rw [mem_inBetween, mem_inBetween]
        by_cases hi : i = x.i
        · rw [hi, inBetween_self hmissed hpc]
        · rw [inBetween_of_ne hpc hi]
      rw [step_size s x hmissed, hset, h.size_eq]
  · rw [vEnd_step hpc, hlen]
    by_cases hix : i = x.i
    · subst hix
      exact hiter hi
    · rw [s.step_thread_of_ne x hix] at hi ⊢
      exact h.iter i hi
  · rw [hkeys]
    by_cases hix : i = x.i
    · subst hix
      exact hrecorded hi
    · unfold Recorded at hi
      unfold keyOf
      rw [s.step_thread_of_ne x hix, vEnd_step hpc] at hi
      rw [s.step_thread_of_ne x hix]
      exact h.recorded i hi

/-- `push_back` by thread `x.i`. -/
theorem Counted.push {s : Threads lib ι} (h : Counted query s) (x : Move ι)
    (hab : s.aborted = false) (hpc : (s.thread x.i).pc = .arriving) (hx : PushAlone s x) :
    Counted query (s.step x) := by
  obtain ⟨-, hsize, hkeys, hself⟩ := step_push hab hpc
  have hlen : (s.step x).server.v.length = s.server.v.length + 1 := by
    simpa using congrArg List.length hkeys
  -- no other iterator stood at the old end, so none stands at the new one
  have hother : ∀ j ≠ x.i, (s.thread j).pc = .returned → (s.thread j).prev ≠ s.vEnd ∧
      (s.thread j).prev ≠ (s.step x).vEnd ∧ (s.thread j).prev.pos < s.server.v.length := by
    intro j hj hret
    have hne := hx hpc j hj hret
    have hlt := (h.iter j hret).resolve_left hne
    refine ⟨hne, fun heq => ?_, hlt⟩
    have := congrArg Iter.pos heq
    rw [vEnd, hlen] at this
    dsimp only at this
    omega
  have hset : (s.step x).inBetween = s.inBetween.erase x.i := by
    ext i
    rw [Finset.mem_erase, mem_inBetween, mem_inBetween]
    by_cases hi : i = x.i
    · subst hi
      simp [InBetween, hself]
    · unfold InBetween
      rw [s.step_thread_of_ne x hi]
      cases hret : (s.thread i).pc <;> simp only [ne_eq, hi, not_false_iff, true_and]
      obtain ⟨hold, hnew, -⟩ := hother i hi hret
      simp [hold, hnew]
  have hmem : x.i ∈ s.inBetween := by simp [InBetween, hpc]
  refine ⟨?_, fun i hi => ?_, fun i => (s.step_query x i).trans (h.query_eq i),
    h.request x, fun i hi => ?_⟩
  · have hcard := Finset.card_erase_add_one hmem
    rw [hsize, h.size_eq, hlen, hset]
    omega
  · by_cases hix : i = x.i
    · subst hix
      rw [hself] at hi
      cases hi
    · rw [s.step_thread_of_ne x hix] at hi ⊢
      obtain ⟨-, -, hlt⟩ := hother i hix hi
      exact Or.inr (by omega)
  · rw [hkeys, List.mem_append]
    by_cases hix : i = x.i
    · subst hix
      have htmp : (s.step x).keyOf x.i = s.keyOf x.i := by
        have hne : (s.thread x.i).pc ≠ .start := by simp [hpc]
        rw [s.step_keyOf x (by simp [hself]), if_neg hne]
      exact Or.inr (by simp [htmp])
    · left
      unfold Recorded at hi
      unfold keyOf
      rw [s.step_thread_of_ne x hix] at hi ⊢
      apply h.recorded i
      unfold Recorded
      cases hret : (s.thread i).pc <;> simp only [hret] at hi ⊢
      exact (hother i hix hret).1

theorem counted_step {s : Threads lib ι} (h : Counted query s) (x : Move ι)
    (hx : PushAlone s x) : Counted query (s.step x) := by
  cases hab : s.aborted with
  | true => rwa [step_of_aborted x hab]
  | false =>
    by_cases hpc : (s.thread x.i).pc = .arriving
    · exact h.push x hab hpc hx
    · exact h.quiet x hab hpc

omit [DecidableEq ι] in
theorem counted_init (tm : lib.Tm) (query : ι → Bytes) : Counted query (init lib tm query) := by
  have hempty : (init lib tm query).inBetween = ∅ := by
    ext i
    simp [InBetween, init, Thread.enter]
  refine ⟨?_, fun i hi => ?_, fun i => rfl, fun i hi => absurd rfl hi, fun i hi => ?_⟩
  · rw [hempty]
    rfl
  · simp [init, Thread.enter] at hi
  · simp [Recorded, init, Thread.enter] at hi

/-- **The counter and the check-ins.** In every run in which no thread runs
`push_back` while another stands between its `return v.end()` and its test
`prev !=v.end()`, `size` is the number of records and of the requests between their
`size++` and their `push_back`, and the pair of every finished request has a record. -/
theorem counted_of_pushAlone (lib : TimeLib) (tm : lib.Tm) (query : ι → Bytes)
    (moves : List (Move ι)) (h : Runs.Along step PushAlone (init lib tm query) moves) :
    ((init lib tm query).run moves).server.size =
        ((init lib tm query).run moves).server.v.length +
          ((init lib tm query).run moves).inBetween.card ∧
      ((∀ i, ¬ ((init lib tm query).run moves).InBetween i) →
        ((init lib tm query).run moves).server.size =
          ((init lib tm query).run moves).server.v.length) ∧
      ∀ i, (((init lib tm query).run moves).thread i).pc = .finished →
        getString (query i) ∈ ((init lib tm query).run moves).server.v.map UserNode.key := by
  have hcounted := Runs.inv_foldl_of_along (Counted query) (fun _ x hs hx => counted_step hs x hx)
    moves _ (counted_init tm query) h
  refine ⟨hcounted.size_eq, fun hnone => ?_, fun i hi => ?_⟩
  · have hempty : ((init lib tm query).run moves).inBetween = ∅ := by
      ext i
      simp [hnone i]
    have hsize := hcounted.size_eq
    rw [← run, hempty, Finset.card_empty] at hsize
    exact hsize
  · rw [← hcounted.key_eq i (by rw [← run, hi]; simp)]
    exact hcounted.recorded i (by rw [← run]; simp [Recorded, hi])

/-- Two arrivals one after the other; each finds `v` full. -/
theorem counted_of_pushAlone_example :
    getString (bytes "name=bob&id=2") ∈ ((init TimeLib.utc (0 : ℤ) fun i : Bool =>
      if i then bytes "name=ann&id=1" else bytes "name=bob&id=2").run
        ((List.replicate 7 true ++ List.replicate 7 false).map fun i =>
          ⟨i, 7, true⟩)).server.v.map UserNode.key :=
  (counted_of_pushAlone TimeLib.utc (0 : ℤ)
    (fun i : Bool => if i then bytes "name=ann&id=1" else bytes "name=bob&id=2")
    ((List.replicate 7 true ++ List.replicate 7 false).map fun i => ⟨i, 7, true⟩)
    (by decide +kernel)).2.2 false (by decide +kernel)

/-- Who comes in: three people, then two at the same time. -/
def crowd (i : Fin 5) : Bytes :=
  [bytes "name=cid&id=3", bytes "name=dan&id=4", bytes "name=eve&id=5", bytes "name=ann&id=1",
    bytes "name=bob&id=2"].get i

/-- Three arrivals, which leave `v` with three records and room for a fourth. Then bob's
thread misses and returns the old `v.end()`, ann's runs to its end, and bob's goes on. -/
def overtaken : List (Move (Fin 5)) :=
  ([0, 1, 2].flatMap fun i => List.replicate 7 ⟨i, 7, true⟩) ++
    List.replicate 5 ⟨4, 7, false⟩ ++ List.replicate 7 ⟨3, 7, false⟩ ++
      List.replicate 5 ⟨4, 7, false⟩

/-- Bob's request looks at `v.end()` after ann's has moved it: it takes her record for its
own. All requests are finished, and the pair of bob has no record. -/
theorem two_threads_lost :
    getString (crowd 4) ∉
        ((init TimeLib.utc (0 : ℤ) crowd).run overtaken).server.v.map UserNode.key ∧
      ∀ i, (((init TimeLib.utc (0 : ℤ) crowd).run overtaken).thread i).pc = .finished := by
  decide +kernel

end FacePerception.Server.Threads
