import FacePerception.Server.Store

/-!
# What `calculat_work_time` computes

`calculat_work_time` (`server/server_http.h`, lines 113–132) adds the time between
`start_time` and `end_time` to counters of seconds, minutes, hours and days of eight
hours. `data` is a `double`, which counts up exactly as far as `2^53`.

Results:
* `calculatWorkTime_carried`: the counters it leaves, and how many days it adds.
* `calculatWorkTime_exact`: it keeps the counters in range and the other fields as they
  are, and when the counters stand for the sum.
-/

namespace FacePerception.Server

open CNum

/-- The counters of a record are digits; `data` is any number of days. -/
structure InRange (r : UserNode) : Prop where
  sec_nonneg : 0 ≤ r.sec
  sec_lt : r.sec < 60
  min_nonneg : 0 ≤ r.min
  min_lt : r.min < 60
  hour_nonneg : 0 ≤ r.hour
  hour_lt : r.hour < 8

/-- The time to be added. -/
def UserNode.elapsed (r : UserNode) : ℤ := r.endTime - r.startTime

/-- How many days are added to `data`. -/
def daysAdded (r : UserNode) : ℕ :=
  ((r.sec + 60 * r.min + 3600 * r.hour + r.elapsed) / 28800).toNat

/-- A `double` that holds `d` counts up by `k` days without rounding: no day is added, or
`2^53` is not passed. (The last case is that in which two roundings cancel out.) -/
def CountsUp (d k : ℕ) : Prop :=
  k = 0 ∨ d + k ≤ 2 ^ 53 ∨ k = 2 ∧ 2 ^ 53 < d ∧ d < 2 ^ 54 ∧ d % 4 = 2

section Exact

variable {r : UserNode} (hr : InRange r) (hle : r.startTime ≤ r.endTime)
  (hint : r.sec + (r.endTime - r.startTime) < 2 ^ 31)

include hr hle hint

/-- **The counters after the loop**, and how often it has carried into `data`. -/
theorem calculatWorkTime_carried :
    Carried r.data (daysAdded r) (r.sec + 60 * r.min + 3600 * r.hour + r.elapsed)
        (calculatWorkTime r) ∧
      (calculatWorkTime r).sec < 60 := by
  obtain ⟨h1, h2, h3, h4, h5, h6⟩ := hr
  have hsec : doubleToInt (r.sec + (r.endTime - r.startTime)) = r.sec + r.elapsed := by
    apply doubleToInt_of_range
    · unfold intMin; omega
    · unfold intMax; omega
  have hstart : Carried r.data 0 (r.sec + 60 * r.min + 3600 * r.hour + r.elapsed)
      { r with sec := r.sec + r.elapsed } := by
    refine ⟨?_, h3, h4, h5, h6, rfl, ?_⟩
    · show 0 ≤ r.sec + (r.endTime - r.startTime)
      omega
    · dsimp only
      push_cast
      omega
  obtain ⟨k, hend, hlt⟩ := workTimeLoop_carried hstart
  rw [calculatWorkTime, hsec]
  have hk : daysAdded r = k := by
    have hsum := hend.sum_eq
    have := hend.sec_nonneg
    have := hend.min_nonneg
    have := hend.min_lt
    have := hend.hour_nonneg
    have := hend.hour_lt
    rw [daysAdded]
    omega
  rw [hk]
  exact ⟨hend, hlt⟩

theorem calculatWorkTime_inRange : InRange (calculatWorkTime r) := by
  obtain ⟨⟨h1, h2, h3, h4, h5, -, -⟩, hlt⟩ := calculatWorkTime_carried hr hle hint
  exact ⟨h1, hlt, h2, h3, h4, h5⟩

theorem calculatWorkTime_total_iff (hdata : roundDouble r.data = r.data) :
    (calculatWorkTime r).total = r.total + r.elapsed ↔ CountsUp r.data (daysAdded r) := by
  obtain ⟨hend, -⟩ := calculatWorkTime_carried hr hle hint
  have hsum := hend.sum_eq
  rw [CountsUp, ← countUp_eq_iff hdata, UserNode.total, UserNode.total, hend.data_eq]
  omega

/-- **`calculat_work_time` is mixed-radix addition**, exact as long as `data` is. -/
theorem calculatWorkTime_exact (hdata : roundDouble r.data = r.data) :
    InRange (calculatWorkTime r) ∧
      (∃ s m h d, calculatWorkTime r = { r with sec := s, min := m, hour := h, data := d }) ∧
      ((calculatWorkTime r).total = r.total + (r.endTime - r.startTime) ↔
        CountsUp r.data (daysAdded r)) :=
  ⟨calculatWorkTime_inRange hr hle hint, calculatWorkTime_frame r,
    calculatWorkTime_total_iff hr hle hint hdata⟩

end Exact

/-- A record of `d` days that `s` seconds are to be added to. -/
def atWork (d : ℕ) (s : ℤ) : UserNode := { buynode [] [] [] [] d with endTime := s }

theorem inRange_atWork (d : ℕ) (s : ℤ) : InRange (atWork d s) := by
  constructor <;> (dsimp only [atWork, buynode]; omega)

/-- Eight hours and one second. -/
theorem calculatWorkTime_exact_example :
    InRange (calculatWorkTime (atWork 3 28801)) ∧
      (∃ s m h d, calculatWorkTime (atWork 3 28801) =
        { atWork 3 28801 with sec := s, min := m, hour := h, data := d }) ∧
      ((calculatWorkTime (atWork 3 28801)).total =
          (atWork 3 28801).total + ((atWork 3 28801).endTime - (atWork 3 28801).startTime) ↔
        CountsUp 3 (daysAdded (atWork 3 28801))) :=
  calculatWorkTime_exact (inRange_atWork 3 28801) (by decide) (by decide) (by decide)

/-- A day added to `2^53` days is lost. -/
theorem not_exact_two_pow :
    InRange (atWork (2 ^ 53) 28800) ∧ roundDouble (atWork (2 ^ 53) 28800).data = 2 ^ 53 ∧
      (atWork (2 ^ 53) 28800).startTime ≤ (atWork (2 ^ 53) 28800).endTime ∧
      (atWork (2 ^ 53) 28800).sec + (atWork (2 ^ 53) 28800).elapsed < 2 ^ 31 ∧
      (calculatWorkTime (atWork (2 ^ 53) 28800)).total ≠
        (atWork (2 ^ 53) 28800).total + (atWork (2 ^ 53) 28800).elapsed := by
  have hr := inRange_atWork (2 ^ 53) 28800
  refine ⟨hr, by decide, by decide, by decide, ?_⟩
  rw [ne_eq, calculatWorkTime_total_iff hr (by decide) (by decide) (by decide)]
  have hdays : daysAdded (atWork (2 ^ 53) 28800) = 1 := by decide
  rw [hdays, CountsUp]
  show ¬ (1 = 0 ∨ 2 ^ 53 + 1 ≤ 2 ^ 53 ∨ 1 = 2 ∧ _)
  omega

end FacePerception.Server
