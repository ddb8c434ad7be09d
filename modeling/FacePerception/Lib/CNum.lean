import Mathlib.Data.Nat.Log
import Mathlib.Data.Int.ModEq
import Mathlib.Logic.Function.Iterate

/-!
# C number conversions

`int` is 32 bits and `long` 64 bits wide; values are `ℤ`, and the conversions
that lose information are functions. A `double` that holds a non-negative
integer is modelled by that integer.

* `longToInt_of_range`, `doubleToInt_of_range`: both conversions are exact on
  the range of `int`.
* `roundDouble_of_lt`: every integer below `2^53` is a `double`.
* `countUp_eq_iff`: how far a `double` counts up exactly.
-/

namespace CNum

def intMin : ℤ := -2 ^ 31
def intMax : ℤ := 2 ^ 31 - 1

/-- `(int)v` for a `long v`: gcc keeps the low 32 bits. -/
def longToInt (v : ℤ) : ℤ := Int.bmod v (2 ^ 32)

/-- `(size_t)v` for an `int v`: a negative one wraps around. -/
def intToSizeT (v : ℤ) : ℕ := (v % 2 ^ 64).toNat

/-- `(int)x` for an integer-valued `double x`. Out of range the C standard
leaves it undefined; x86 stores `INT_MIN`. -/
def doubleToInt (x : ℤ) : ℤ := if intMin ≤ x ∧ x ≤ intMax then x else intMin

/-- The `double` nearest to the integer `n`, ties to the even significand:
53 significant bits are kept. -/
def roundDouble (n : ℕ) : ℕ :=
  let ulp := 2 ^ (Nat.log2 n - 52)
  let q := n / ulp
  let r := n % ulp
  (if ulp < 2 * r ∨ ulp = 2 * r ∧ q % 2 = 1 then q + 1 else q) * ulp

theorem longToInt_of_range {v : ℤ} (h1 : intMin ≤ v) (h2 : v ≤ intMax) : longToInt v = v := by
  unfold intMin at h1
  unfold intMax at h2
  rw [longToInt, Int.bmod_def]
  split_ifs <;> omega

/-- A size that is passed as an `int`: the low 32 bits, with the upper bit extended. -/
theorem intToSizeT_longToInt (n : ℕ) : intToSizeT (longToInt n) =
    if n % 2 ^ 32 < 2 ^ 31 then n % 2 ^ 32 else n % 2 ^ 32 + (2 ^ 64 - 2 ^ 32) := by
  rw [intToSizeT, longToInt, Int.bmod_def]
  split_ifs <;> omega

theorem doubleToInt_of_range {x : ℤ} (h1 : intMin ≤ x) (h2 : x ≤ intMax) :
    doubleToInt x = x := by
  rw [doubleToInt, if_pos ⟨h1, h2⟩]

theorem roundDouble_of_lt {n : ℕ} (h : n < 2 ^ 53) : roundDouble n = n := by
  have hulp : Nat.log2 n - 52 = 0 := by
    rcases Nat.eq_zero_or_pos n with rfl | hn
    · rfl
    · have := (Nat.log2_lt (by omega)).mpr h
      omega
  simp [roundDouble, hulp, Nat.mod_one]

/-- Adding 1 to `2^53` is lost. -/
theorem roundDouble_two_pow : roundDouble (2 ^ 53) = 2 ^ 53 := by decide

theorem roundDouble_two_pow_succ : roundDouble (2 ^ 53 + 1) = 2 ^ 53 := by decide

/-- Counting up from a `double` at or below `2^53` by ones stops at `2^53`. -/
theorem roundDouble_succ {d : ℕ} (h : d ≤ 2 ^ 53) :
    roundDouble (d + 1) = min (d + 1) (2 ^ 53) := by
  rcases Nat.lt_or_ge (d + 1) (2 ^ 53) with hlt | hge
  · rw [roundDouble_of_lt hlt, min_eq_left (by omega)]
  · rcases Nat.eq_or_lt_of_le hge with heq | hgt
    · rw [← heq, roundDouble_two_pow, min_self]
    · have hd : d = 2 ^ 53 := by omega
      rw [hd, roundDouble_two_pow_succ, min_eq_right (by omega)]

/-! ## Counting up -/

theorem roundDouble_of_dvd {n : ℕ} (h : 2 ^ (Nat.log2 n - 52) ∣ n) : roundDouble n = n := by
  have hpos := Nat.two_pow_pos (Nat.log2 n - 52)
  rw [roundDouble, Nat.mod_eq_zero_of_dvd h, if_neg (by omega), Nat.div_mul_cancel h]

/-- Beyond `2^53` every `double` is even, and adding 1 either is lost or, where the half
lies next to an odd significand, adds 2. -/
theorem roundDouble_succ_of_le {d : ℕ} (h : 2 ^ 53 ≤ d) (hd : roundDouble d = d) :
    roundDouble (d + 1) = if d < 2 ^ 54 ∧ d % 4 = 2 then d + 2 else d := by
  have hexp : 53 ≤ Nat.log2 d := (Nat.le_log2 (by omega)).mpr h
  obtain ⟨j, hj⟩ : ∃ j, Nat.log2 d - 52 = j + 1 := ⟨Nat.log2 d - 53, by omega⟩
  have hulp : 2 ^ (Nat.log2 d - 52) = 2 * 2 ^ j := by rw [hj, pow_succ, Nat.mul_comm]
  obtain ⟨c, hc⟩ : ∃ c, d = c * (2 * 2 ^ j) := by
    rw [roundDouble, hulp] at hd
    exact ⟨_, hd.symm⟩
  have hlog : Nat.log2 (d + 1) = Nat.log2 d := by
    rw [Nat.log2_eq_iff (by omega)]
    have hlt : d < 2 ^ (Nat.log2 d + 1) := Nat.lt_log2_self
    have hle : 2 ^ Nat.log2 d ≤ d := Nat.log2_self_le (by omega)
    rw [pow_succ] at hlt
    have heven : d % 2 = 0 := by
      rw [hc, Nat.mul_left_comm, Nat.mul_mod_right]
    constructor
    · omega
    · rw [pow_succ]
      omega
  have hpos : 0 < 2 ^ j := Nat.two_pow_pos j
  have hdiv : (d + 1) / (2 * 2 ^ j) = c := by
    rw [hc, Nat.add_comm, Nat.add_mul_div_right _ _ (by omega), Nat.div_eq_of_lt (by omega),
      Nat.zero_add]
  have hmod : (d + 1) % (2 * 2 ^ j) = 1 := by
    rw [hc, Nat.add_comm, Nat.add_mul_mod_self_right, Nat.mod_eq_of_lt (by omega)]
  rw [roundDouble, hlog, hulp, hdiv, hmod]
  cases j with
  | zero =>
    -- two apart: `d + 1` lies half way, and the even significand is taken
    have hlt : d < 2 ^ 54 := (Nat.log2_lt (by omega)).mp (by omega)
    have hodd : d % 4 = 2 ↔ c % 2 = 1 := by omega
    simp only [hlt, hodd, true_and]
    split_ifs <;> omega
  | succ j =>
    have hle : 2 ^ 54 ≤ d := (Nat.le_log2 (by omega)).mp (by omega)
    have hpow : 2 ^ (j + 1) = 2 * 2 ^ j := by rw [pow_succ, Nat.mul_comm]
    have := Nat.two_pow_pos j
    rw [if_neg (by omega), if_neg (by omega), hc]

/-- What is left of a `double` after `k` additions of 1. -/
def countUp (d k : ℕ) : ℕ := (fun d => roundDouble (d + 1))^[k] d

theorem countUp_succ (d k : ℕ) : countUp d (k + 1) = roundDouble (countUp d k + 1) :=
  Function.iterate_succ_apply' _ _ _

theorem countUp_of_le {d : ℕ} (h : d ≤ 2 ^ 53) (k : ℕ) : countUp d k = min (d + k) (2 ^ 53) := by
  induction k with
  | zero => exact (min_eq_left h).symm
  | succ k ih =>
    rw [countUp_succ, ih, roundDouble_succ (min_le_right _ _)]
    omega

theorem countUp_of_fixed {d : ℕ} (h : roundDouble (d + 1) = d) (k : ℕ) : countUp d k = d :=
  Function.iterate_fixed h k

/-- **Counting up is exact** as far as `2^53`; and in one case beyond, where the first
of two additions adds 2 and the second nothing. -/
theorem countUp_eq_iff {d : ℕ} (hd : roundDouble d = d) (k : ℕ) :
    countUp d k = d + k ↔
      k = 0 ∨ d + k ≤ 2 ^ 53 ∨ k = 2 ∧ 2 ^ 53 < d ∧ d < 2 ^ 54 ∧ d % 4 = 2 := by
  rcases Nat.lt_or_ge d (2 ^ 53) with hlt | hge
  · rw [countUp_of_le (by omega)]
    omega
  · have hstep := roundDouble_succ_of_le hge hd
    by_cases hodd : d < 2 ^ 54 ∧ d % 4 = 2
    · rw [if_pos hodd] at hstep
      have hd' : roundDouble (d + 2) = d + 2 := by
        apply roundDouble_of_dvd
        rcases Nat.eq_or_lt_of_le (show d + 2 ≤ 2 ^ 54 by omega) with heq | hlt
        · rw [heq]
          decide
        · rw [(Nat.log2_eq_iff (by omega)).mpr ⟨by omega, hlt⟩]
          show 2 ∣ d + 2
          omega
      have hfixed : roundDouble (d + 2 + 1) = d + 2 := by
        rw [roundDouble_succ_of_le (by omega) hd', if_neg (by omega)]
      cases k with
      | zero => exact iff_of_true rfl (Or.inl rfl)
      | succ k =>
        have hcount : countUp d (k + 1) = d + 2 := by
          rw [countUp, Function.iterate_succ_apply, hstep]
          exact countUp_of_fixed hfixed k
        rw [hcount]
        omega
    · rw [if_neg hodd] at hstep
      rw [countUp_of_fixed hstep]
      omega

end CNum
