import FacePerception.Lib.Runs
import FacePerception.Server.Threads

/-!
# One record for each pair, in many threads

`find_id` is there "to insert without duplicates" (`server/server_http.h`, line
93), but its scan, `size++` and the `push_back` are separate steps.

Results:
* `keys_nodup_of_scanAlone`: the store holds one record per pair in every run in
  which no thread scans for a pair while another thread is between its failed
  scan for that pair and its `push_back`.
* `exists_duplicate_of_overlap`: from any state in which two such threads overlap
  the run can go on to a store with two records of the pair.
-/

namespace FacePerception.Server.Threads

open CString

variable {lib : TimeLib} {ι : Type} [DecidableEq ι]

/-! ## The invariant -/

/-- If `x` is a scan of `v`, no other thread is on its way to `push_back` a record
of the same pair. -/
def ScanAlone (s : Threads lib ι) (x : Move ι) : Prop :=
  (s.thread x.i).pc = .timed → ∀ j ≠ x.i, s.Pending j → s.keyOf j ≠ s.keyOf x.i

instance decidableScanAlone [Fintype ι] (s : Threads lib ι) (x : Move ι) :
    Decidable (ScanAlone s x) :=
  inferInstanceAs (Decidable (_ → ∀ j, j ≠ x.i → s.Pending j → s.keyOf j ≠ s.keyOf x.i))

/-- What keeps the pairs apart while threads interleave. -/
structure Apart (s : Threads lib ι) : Prop where
  nodup : (s.server.v.map UserNode.key).Nodup
  absent : ∀ i, s.Pending i → s.keyOf i ∉ s.server.v.map UserNode.key
  distinct : ∀ i j, i ≠ j → s.Pending i → s.Pending j → s.keyOf i ≠ s.keyOf j
  iter : ∀ i, (s.thread i).pc = .returned → (s.thread i).prev.pos ≤ s.server.v.length

theorem findScan_eq_length {head : UserNode} {v : List UserNode}
    (h : findScan head v = v.length) : head.key ∉ v.map UserNode.key := by
  intro hmem
  obtain ⟨r, hr, hk⟩ := List.mem_map.mp hmem
  have hlt : findScan head v < v.length := by
    rw [findScan, List.findIdx_lt_length]
    refine ⟨r, hr, ?_⟩
    rw [UserNode.key, UserNode.key, Prod.mk.injEq] at hk
    simp [hk]
  omega

theorem findScan_eq_length_of_notMem {head : UserNode} {v : List UserNode}
    (h : head.key ∉ v.map UserNode.key) : findScan head v = v.length := by
  rw [findScan, List.findIdx_eq_length]
  intro r hr
  simp only [decide_eq_false_iff_not]
  rintro ⟨hid, hname⟩
  exact h (List.mem_map.mpr ⟨r, hr, by rw [UserNode.key, UserNode.key, hid, hname]⟩)

/-- A step that adds no record keeps the pairs apart as long as the thread it
moves does not set out for `push_back` with a pair that is taken. -/
theorem Apart.quiet {s : Threads lib ι} (h : Apart s) (x : Move ι)
    (hpc : (s.thread x.i).pc ≠ .arriving)
    (hpend : (s.step x).Pending x.i → (s.step x).keyOf x.i ∉ s.server.v.map UserNode.key ∧
      ∀ j ≠ x.i, s.Pending j → s.keyOf j ≠ (s.step x).keyOf x.i)
    (hiter : ((s.step x).thread x.i).pc = .returned →
      ((s.step x).thread x.i).prev.pos ≤ s.server.v.length) : Apart (s.step x) := by
  have hkeys := (s.step_quiet x hpc).1
  have hlen := length_step hpc
  have hother : ∀ j ≠ x.i, ((s.step x).Pending j → s.Pending j) ∧
      (s.step x).keyOf j = s.keyOf j := by
    intro j hj
    have hth := s.step_thread_of_ne x hj
    unfold Pending keyOf
    rw [hth, vEnd_step hpc]
    exact ⟨id, rfl⟩
  refine ⟨hkeys ▸ h.nodup, fun j hj => ?_, fun j k hjk hj hk => ?_, fun j hj => ?_⟩
  · rw [hkeys]
    by_cases hji : j = x.i
    · exact hji ▸ (hpend (hji ▸ hj)).1
    · rw [(hother j hji).2]
      exact h.absent j ((hother j hji).1 hj)
  · by_cases hji : j = x.i
    · subst hji
      rw [(hother k hjk.symm).2]
      exact ((hpend hj).2 k hjk.symm ((hother k hjk.symm).1 hk)).symm
    · rw [(hother j hji).2]
      by_cases hki : k = x.i
      · subst hki
        exact (hpend hk).2 j hji ((hother j hji).1 hj)
      · rw [(hother k hki).2]
        exact h.distinct j k hjk ((hother j hji).1 hj) ((hother k hki).1 hk)
  · rw [hlen]
    by_cases hji : j = x.i
    · subst hji
      exact hiter hj
    · rw [s.step_thread_of_ne x hji] at hj ⊢
      exact h.iter j hj

omit [DecidableEq ι] in
/-- A thread already on its way to `push_back` may go on. -/
theorem Apart.free {s : Threads lib ι} (h : Apart s) {i : ι} {k : Bytes × Bytes}
    (hi : s.Pending i) (hk : k = s.keyOf i) :
    k ∉ s.server.v.map UserNode.key ∧ ∀ j ≠ i, s.Pending j → s.keyOf j ≠ k := by
  subst hk
  exact ⟨h.absent i hi, fun j hj hpj => h.distinct j i hj hpj hi⟩

/-- `push_back` by thread `x.i`. -/
theorem Apart.push {s : Threads lib ι} (h : Apart s) (x : Move ι) (hab : s.aborted = false)
    (hpc : (s.thread x.i).pc = .arriving) : Apart (s.step x) := by
  have hpend : s.Pending x.i := by simp [Pending, hpc]
  obtain ⟨-, -, hkeys, hself⟩ := step_push hab hpc
  have hlen : (s.step x).server.v.length = s.server.v.length + 1 := by
    simpa using congrArg List.length hkeys
  have hother : ∀ j, (s.step x).Pending j →
      j ≠ x.i ∧ s.Pending j ∧ (s.step x).keyOf j = s.keyOf j := by
    intro j hj
    have hji : j ≠ x.i := by
      rintro rfl
      simp [Pending, hself] at hj
    have hth := s.step_thread_of_ne x hji
    refine ⟨hji, ?_, by rw [keyOf, hth, keyOf]⟩
    unfold Pending at hj ⊢
    rw [hth] at hj
    cases hpcj : (s.thread j).pc <;> simp only [hpcj] at hj ⊢
    -- an iterator taken before the push is not at the new end
    have hpos := h.iter j hpcj
    have := congrArg Iter.pos hj
    rw [vEnd, hlen] at this
    dsimp only at this
    omega
  refine ⟨?_, fun j hj => ?_, fun j k hjk hj hk => ?_, fun j hj => ?_⟩
  · rw [hkeys, List.nodup_append]
    refine ⟨h.nodup, by simp, ?_⟩
    rintro a ha b hb rfl
    exact h.absent x.i hpend (List.mem_singleton.mp hb ▸ ha)
  · obtain ⟨hji, hpj, hkj⟩ := hother j hj
    rw [hkeys, hkj, List.mem_append, List.mem_singleton, not_or]
    exact ⟨h.absent j hpj, h.distinct j x.i hji hpj hpend⟩
  · obtain ⟨-, hpj, hkj⟩ := hother j hj
    obtain ⟨-, hpk, hkk⟩ := hother k hk
    rw [hkj, hkk]
    exact h.distinct j k hjk hpj hpk
  · have hji : j ≠ x.i := by
      rintro rfl
      rw [hself] at hj
      cases hj
    rw [s.step_thread_of_ne x hji] at hj ⊢
    have := h.iter j hj
    omega

/-- What a step makes of the thread it moves, if it is not a `push_back`. -/
theorem Apart.self {s : Threads lib ι} (h : Apart s) (x : Move ι) (hx : ScanAlone s x)
    (hpc : (s.thread x.i).pc ≠ .arriving) :
    ((s.step x).Pending x.i → (s.step x).keyOf x.i ∉ s.server.v.map UserNode.key ∧
        ∀ j ≠ x.i, s.Pending j → s.keyOf j ≠ (s.step x).keyOf x.i) ∧
      (((s.step x).thread x.i).pc = .returned →
        ((s.step x).thread x.i).prev.pos ≤ s.server.v.length) := by
  have hmoved := s.step_moved x
  have hiter := h.iter x.i
  have hscan : (s.thread x.i).pc = .timed → ∀ j ≠ x.i, s.Pending j →
      s.keyOf j ≠ (s.thread x.i).tmp.key := hx
  have hfree : s.Pending x.i → (s.thread x.i).tmp.key ∉ s.server.v.map UserNode.key ∧
      ∀ j ≠ x.i, s.Pending j → s.keyOf j ≠ (s.thread x.i).tmp.key := fun hi => h.free hi rfl
  rw [Pending] at hfree
  rw [Pending, keyOf, vEnd_step hpc]
  generalize s.thread x.i = th at hmoved hiter hscan hfree
  generalize (s.step x).thread x.i = th' at hmoved
  cases hmoved with
  | stays => exact ⟨hfree, hiter⟩
  | hit hpc hcur =>
    have hle : findScan th.tmp s.server.v ≤ s.server.v.length := List.findIdx_le_length
    exact ⟨by simp [vEnd, hcur], fun _ => hle⟩
  | missed hpc hcur => exact ⟨fun _ => ⟨findScan_eq_length hcur, hscan hpc⟩, by simp⟩
  | counted hpc => exact ⟨fun _ => hfree (by simp [hpc]), by simp⟩
  | returned hpc => exact ⟨fun _ => hfree (by simp [hpc]), fun _ => le_rfl⟩
  | arriving hpc hend => exact ⟨fun _ => hfree (by simp [hpc, hend]), by simp⟩
  | _ => simp

theorem apart_step {s : Threads lib ι} (h : Apart s) (x : Move ι) (hx : ScanAlone s x) :
    Apart (s.step x) := by
  cases hab : s.aborted with
  | true => rwa [step_of_aborted x hab]
  | false =>
    by_cases hpc : (s.thread x.i).pc = .arriving
    · exact h.push x hab hpc
    · obtain ⟨hpend, hiter⟩ := h.self x hx hpc
      exact h.quiet x hpc hpend hiter

omit [DecidableEq ι] in
theorem apart_init (tm : lib.Tm) (query : ι → Bytes) : Apart (init lib tm query) := by
  refine ⟨by simp [init, ServerHttp.init], fun i hi => ?_, fun i j _ hi _ => ?_, fun i hi => ?_⟩
  · simp [Pending, init, Thread.enter] at hi
  · simp [Pending, init, Thread.enter] at hi
  · simp [init, Thread.enter] at hi

/-- **One record for each pair**, whatever the interleaving, as long as no thread
scans for a pair while another is between its failed scan for that pair and its
`push_back`. -/
theorem keys_nodup_of_scanAlone (lib : TimeLib) (tm : lib.Tm) (query : ι → Bytes)
    (moves : List (Move ι)) (h : Runs.Along step ScanAlone (init lib tm query) moves) :
    (((init lib tm query).run moves).server.v.map UserNode.key).Nodup :=
  (Runs.inv_foldl_of_along Apart (fun _ x hs hx => apart_step hs x hx) moves _
    (apart_init tm query) h).nodup

/-- Two requests of one pair; the second scans after the first has pushed. -/
theorem keys_nodup_of_scanAlone_example :
    (((init TimeLib.utc (0 : ℤ) fun _ : Bool => bytes "name=ann&id=1").run
      ([true, false, true, false, true, true, true, true, true, false, false, false].map
        fun i => ⟨i, 7, true⟩)).server.v.map UserNode.key).Nodup :=
  keys_nodup_of_scanAlone TimeLib.utc _ _ _ (by decide +kernel)

/-- Both threads have scanned before either has pushed. -/
theorem two_threads_duplicate :
    ¬ (((((init TimeLib.utc (0 : ℤ) fun _ : Bool => bytes "name=ann&id=1").run
      ([true, true, true, false, false, false, true, false, true, false, true, false, true,
        false].map fun i => ⟨i, 7, true⟩)).server.v.map UserNode.key)).Nodup) := by
  decide +kernel

/-! ## Overlapping scans can always end in a duplicate -/

/-- `s'` differs from `s` in where thread `j` stands, with `v` as it was. -/
structure Toward (s s' : Threads lib ι) (j : ι) : Prop where
  alive : s'.aborted = false
  key : s'.keyOf j = s.keyOf j
  clock : (s'.thread j).clock = (s.thread j).clock
  tm : s'.tm = s.tm
  other : ∀ k ≠ j, s'.thread k = s.thread k
  v : s'.server.v = s.server.v
  gen : s'.gen = s.gen

omit [DecidableEq ι] in
theorem Toward.trans {s s' s'' : Threads lib ι} {j : ι} (h₁ : Toward s s' j)
    (h₂ : Toward s' s'' j) : Toward s s'' j :=
  ⟨h₂.alive, h₂.key.trans h₁.key, h₂.clock.trans h₁.clock, h₂.tm.trans h₁.tm,
    fun k hk => (h₂.other k hk).trans (h₁.other k hk), h₂.v.trans h₁.v, h₂.gen.trans h₁.gen⟩

/-- How many steps a pending thread is away from its `push_back`. -/
def Pc.toGo : Pc → ℕ
  | .missed => 3
  | .counted => 2
  | .returned => 1
  | _ => 0

theorem Pending.move {s : Threads lib ι} {j : ι} (hab : s.aborted = false) (hj : s.Pending j)
    (hne : (s.thread j).pc ≠ .arriving) :
    Toward s (s.step ⟨j, 0, false⟩) j ∧ (s.step ⟨j, 0, false⟩).Pending j ∧
      Pc.toGo ((s.step ⟨j, 0, false⟩).thread j).pc < Pc.toGo (s.thread j).pc := by
  have hother : ∀ k ≠ j, (s.step ⟨j, 0, false⟩).thread k = s.thread k :=
    fun k hk => s.step_thread_of_ne ⟨j, 0, false⟩ hk
  have hstep : s.step ⟨j, 0, false⟩ = s.act ⟨j, 0, false⟩ (s.thread j) :=
    step_of_alive ⟨j, 0, false⟩ hab
  rw [hstep] at hother ⊢
  cases hpc : (s.thread j).pc <;> simp only [Pending, hpc] at hj
  case missed =>
    refine ⟨⟨?_, ?_, ?_, ?_, hother, ?_, ?_⟩, ?_, ?_⟩ <;>
      simp [act, hpc, hab, keyOf, Pending, Pc.toGo]
  case counted =>
    refine ⟨⟨?_, ?_, ?_, ?_, hother, ?_, ?_⟩, ?_, ?_⟩ <;>
      simp [act, hpc, hab, keyOf, Pending, vEnd, Pc.toGo]
  case returned =>
    refine ⟨⟨?_, ?_, ?_, ?_, hother, ?_, ?_⟩, ?_, ?_⟩ <;>
      simp [act, hpc, hab, keyOf, Pending, hj, Pc.toGo]
  case arriving => exact absurd hpc hne

/-- A pending thread that moves alone comes to its `push_back`. -/
theorem Pending.exists_arriving {s : Threads lib ι} {j : ι} (hab : s.aborted = false)
    (hj : s.Pending j) :
    ∃ moves, Toward s (s.run moves) j ∧ ((s.run moves).thread j).pc = .arriving := by
  by_cases hpc : (s.thread j).pc = .arriving
  · exact ⟨[], ⟨hab, rfl, rfl, rfl, fun _ _ => rfl, rfl, rfl⟩, hpc⟩
  · obtain ⟨htoward, hpend, hlt⟩ := Pending.move hab hj hpc
    obtain ⟨moves, htoward', hpc'⟩ := Pending.exists_arriving htoward.alive hpend
    exact ⟨⟨j, 0, false⟩ :: moves, htoward.trans htoward', hpc'⟩
termination_by Pc.toGo (s.thread j).pc

omit [DecidableEq ι] in
/-- Another thread's way to its `push_back` leaves a pending thread pending. -/
theorem Toward.pending {s s' : Threads lib ι} {i j : ι} (h : Toward s s' i) (hij : j ≠ i)
    (hj : s.Pending j) : s'.Pending j := by
  unfold Pending vEnd at hj ⊢
  rwa [h.other j hij, h.v, h.gen]

/-- Two threads at their `push_back` with the same pair. -/
theorem duplicate_of_two_arriving {s : Threads lib ι} (hab : s.aborted = false) {i j : ι}
    (hij : j ≠ i) (hi : (s.thread i).pc = .arriving) (hj : (s.thread j).pc = .arriving)
    (hk : s.keyOf j = s.keyOf i) :
    ¬ ((s.run [⟨i, 0, false⟩, ⟨j, 0, false⟩]).server.v.map UserNode.key).Nodup := by
  obtain ⟨hab', -, hkeys, -⟩ := step_push (x := ⟨i, 0, false⟩) hab hi
  have hother := s.step_thread_of_ne ⟨i, 0, false⟩ hij
  obtain ⟨-, -, hkeys', -⟩ :=
    step_push (x := ⟨j, 0, false⟩) hab' ((congrArg Thread.pc hother).trans hj)
  have hkey : (s.step ⟨i, 0, false⟩).keyOf j = s.keyOf i := by
    rw [keyOf, hother]
    exact hk
  rw [hkeys, hkey] at hkeys'
  rw [run, List.foldl_cons, List.foldl_cons, List.foldl_nil, hkeys']
  simp [List.nodup_append]

/-- **The condition is tight.** Where a thread scans for a pair while another is on
its way to `push_back` a record of that pair, the run can go on to a store with two
records of the pair. -/
theorem exists_duplicate_of_overlap {s : Threads lib ι} (h : Apart s) (hab : s.aborted = false)
    {i j : ι} (hij : j ≠ i) (hpc : (s.thread i).pc = .timed) (hj : s.Pending j)
    (hk : s.keyOf j = s.keyOf i) :
    ∃ moves, ¬ ((s.run moves).server.v.map UserNode.key).Nodup := by
  -- thread `i` scans and finds nothing
  have habsent : s.keyOf i ∉ s.server.v.map UserNode.key := hk ▸ h.absent j hj
  have hscan : s.step ⟨i, 0, false⟩ = s.put i { s.thread i with pc := .missed } := by
    rw [step_of_alive ⟨i, 0, false⟩ hab]
    simp [act, hpc, findScan_eq_length_of_notMem habsent]
  have hscanned : Toward s (s.step ⟨i, 0, false⟩) i := by
    rw [hscan]
    exact ⟨hab, by simp [keyOf], by simp, rfl, fun k hk => put_thread_of_ne s _ hk, rfl, rfl⟩
  have hi : (s.step ⟨i, 0, false⟩).Pending i := by simp [hscan, Pending]
  -- both threads come to their `push_back` before either takes it
  obtain ⟨moves₁, hto₁, hpc₁⟩ := Pending.exists_arriving hscanned.alive hi
  have hto := hscanned.trans hto₁
  obtain ⟨moves₂, hto₂, hpc₂⟩ := Pending.exists_arriving hto.alive (hto.pending hij hj)
  have hkey_i := congrArg (fun th => th.tmp.key) (hto₂.other i hij.symm)
  have hkey_j := congrArg (fun th => th.tmp.key) (hto.other j hij)
  refine ⟨⟨i, 0, false⟩ :: (moves₁ ++ (moves₂ ++ [⟨i, 0, false⟩, ⟨j, 0, false⟩])), ?_⟩
  have hdup := duplicate_of_two_arriving hto₂.alive hij
    ((congrArg Thread.pc (hto₂.other i hij.symm)).trans hpc₁) hpc₂
    ((hto₂.key.trans (hkey_j.trans hk)).trans (hkey_i.trans hto.key).symm)
  simpa [run, List.foldl_append] using hdup

end FacePerception.Server.Threads
