import FacePerception.Lib.CString
import Mathlib.Data.List.DropRight

/-!
# How `cout` prints a `double`

`cout<<x` prints six significant digits (`%g`). Here `x` is a natural number, as in
`CNum`: below a million it is printed in decimal, from there on it is rounded and has an
exponent, and zeros at its end are dropped.

* `round6_round6`: what is printed is rounded once and for all.
* `coutDouble_determines_iff`: which numbers the text tells from all others.
-/

namespace CString

/-- `n` rounded to six significant digits, ties to the even digit. -/
def round6 (n : ℕ) : ℕ :=
  let ulp := 10 ^ (Nat.log 10 n - 5)
  let q := n / ulp
  let r := n % ulp
  (if ulp < 2 * r ∨ ulp = 2 * r ∧ q % 2 = 1 then q + 1 else q) * ulp

/-- `m` with an exponent: its first digit, the others if there are any, and at least two
digits of the exponent. -/
def scientific (m : ℕ) : Bytes :=
  let digits := (decimal m).rdropWhile (· = ch '0')
  let exponent := Nat.log 10 m
  digits.take 1 ++ (if digits.length > 1 then ch '.' :: digits.drop 1 else []) ++ bytes "e+" ++
    (if exponent < 10 then ch '0' :: decimal exponent else decimal exponent)

/-- `cout<<n`, where `n` is a `double`. -/
def coutDouble (n : ℕ) : Bytes :=
  if round6 n < 10 ^ 6 then decimal (round6 n) else scientific (round6 n)

example : [999999, 1000000, 1234565, 9999996].map coutDouble =
    [bytes "999999", bytes "1e+06", bytes "1.23456e+06", bytes "1e+07"] := by decide +kernel

/-! ## Rounding -/

theorem round6_of_lt {n : ℕ} (h : n < 10 ^ 6) : round6 n = n := by
  have hlog : Nat.log 10 n - 5 = 0 := by
    rcases Nat.eq_zero_or_pos n with rfl | hn
    · rfl
    · have := Nat.log_lt_of_lt_pow hn.ne' h
      omega
  simp [round6, hlog, Nat.mod_one]

/-- A number `q * 10 ^ k + r` whose first six digits are `q`. -/
theorem log_mul_add {q k r : ℕ} (hq : 10 ^ 5 ≤ q) (hq' : q < 10 ^ 6) (hr : r < 10 ^ k) :
    Nat.log 10 (q * 10 ^ k + r) = k + 5 := by
  apply Nat.log_eq_of_pow_le_of_lt_pow
  · calc 10 ^ (k + 5) = 10 ^ 5 * 10 ^ k := by rw [pow_add, Nat.mul_comm]
      _ ≤ q * 10 ^ k := Nat.mul_le_mul_right _ hq
      _ ≤ q * 10 ^ k + r := Nat.le_add_right _ _
  · calc q * 10 ^ k + r < (q + 1) * 10 ^ k := by rw [Nat.add_one_mul]; omega
      _ ≤ 10 ^ 6 * 10 ^ k := Nat.mul_le_mul_right _ hq'
      _ = 10 ^ (k + 5 + 1) := by rw [← pow_add]; congr 1; omega

/-- Less than a half is rounded down. -/
theorem round6_mul_add {q k r : ℕ} (hq : 10 ^ 5 ≤ q) (hq' : q < 10 ^ 6) (hr : 2 * r < 10 ^ k) :
    round6 (q * 10 ^ k + r) = q * 10 ^ k := by
  have hlog := log_mul_add hq hq' (show r < 10 ^ k by omega)
  have hdiv : (q * 10 ^ k + r) / 10 ^ k = q := by
    rw [Nat.mul_comm, Nat.mul_add_div (by positivity), Nat.div_eq_of_lt (by omega), Nat.add_zero]
  have hmod : (q * 10 ^ k + r) % 10 ^ k = r := by
    rw [Nat.mul_comm, Nat.mul_add_mod, Nat.mod_eq_of_lt (by omega)]
  rw [round6, hlog, Nat.add_sub_cancel, hdiv, hmod, if_neg (by omega)]

/-- What a number from a million on is rounded to. -/
theorem exists_round6 {n : ℕ} (h : 10 ^ 6 ≤ n) :
    ∃ q k, 10 ^ 5 ≤ q ∧ q < 10 ^ 6 ∧ 0 < k ∧ round6 n = q * 10 ^ k := by
  have hlog : 6 ≤ Nat.log 10 n := Nat.le_log_of_pow_le (by omega) h
  obtain ⟨k, hk⟩ : ∃ k, Nat.log 10 n = k + 5 := ⟨Nat.log 10 n - 5, by omega⟩
  have hpos : 0 < 10 ^ k := by positivity
  have hle : 10 ^ 5 * 10 ^ k ≤ n := by
    rw [← pow_add, Nat.add_comm, ← hk]
    exact Nat.pow_log_le_self 10 (by omega)
  have hlt : n < 10 ^ 6 * 10 ^ k := by
    have := Nat.lt_pow_succ_log_self (b := 10) (by omega) n
    rwa [hk, Nat.succ_eq_add_one, show k + 5 + 1 = 6 + k by omega, pow_add] at this
  have hq : 10 ^ 5 ≤ n / 10 ^ k := (Nat.le_div_iff_mul_le hpos).mpr hle
  have hq' : n / 10 ^ k < 10 ^ 6 := Nat.div_lt_of_lt_mul (by rwa [Nat.mul_comm])
  rw [round6, hk, Nat.add_sub_cancel]
  split_ifs
  · -- a carry out of the last digit gives one more of them
    rcases Nat.lt_or_ge (n / 10 ^ k + 1) (10 ^ 6) with hsucc | hsucc
    · exact ⟨_, k, by omega, hsucc, by omega, rfl⟩
    · refine ⟨10 ^ 5, k + 1, le_rfl, by norm_num, by omega, ?_⟩
      have hcarry : n / 10 ^ k + 1 = 10 ^ 5 * 10 := by omega
      rw [hcarry, Nat.mul_assoc, Nat.pow_succ 10 k, Nat.mul_comm 10 (10 ^ k)]
  · exact ⟨_, k, hq, hq', by omega, rfl⟩

theorem round6_round6 (n : ℕ) : round6 (round6 n) = round6 n := by
  rcases Nat.lt_or_ge n (10 ^ 6) with h | h
  · rw [round6_of_lt h, round6_of_lt h]
  · obtain ⟨q, k, hq, hq', -, heq⟩ := exists_round6 h
    have hexact := round6_mul_add (k := k) (r := 0) hq hq' (by positivity)
    rwa [Nat.add_zero, ← heq] at hexact

theorem le_round6 {n : ℕ} (h : 10 ^ 6 ≤ n) : 10 ^ 6 ≤ round6 n := by
  obtain ⟨q, k, hq, -, hk, heq⟩ := exists_round6 h
  rw [heq]
  calc 10 ^ 6 = 10 ^ 5 * 10 ^ 1 := by norm_num
    _ ≤ q * 10 ^ k := Nat.mul_le_mul hq (Nat.pow_le_pow_right (by omega) hk)

/-- From a million on, no number is rounded alone. -/
theorem exists_ne_round6 {n : ℕ} (h : 10 ^ 6 ≤ n) : ∃ n', n' ≠ n ∧ round6 n' = round6 n := by
  by_cases hn : round6 n = n
  · obtain ⟨q, k, hq, hq', hk, heq⟩ := exists_round6 h
    have hten : 10 ^ 1 ≤ 10 ^ k := Nat.pow_le_pow_right (by omega) hk
    refine ⟨n + 1, by omega, ?_⟩
    rw [heq, ← hn, heq]
    exact round6_mul_add hq hq' (by omega)
  · exact ⟨round6 n, hn, round6_round6 n⟩

/-! ## The text -/

theorem coutDouble_of_lt {n : ℕ} (h : n < 10 ^ 6) : coutDouble n = decimal n := by
  rw [coutDouble, round6_of_lt h, if_pos h]

theorem e_mem_coutDouble {n : ℕ} (h : 10 ^ 6 ≤ n) : ch 'e' ∈ coutDouble n := by
  have hmem : ch 'e' ∈ bytes "e+" := by decide
  rw [coutDouble, if_neg (Nat.not_lt.mpr (le_round6 h)), scientific]
  simp [hmem]

theorem notMem_decimal {c : UInt8} (hdigit : isDigit c = false) (n : ℕ) : c ∉ decimal n := by
  intro hmem
  rw [isDigit_decimal n c hmem] at hdigit
  cases hdigit

theorem decimal_injective : Function.Injective decimal := by
  intro n n' h
  rw [← digitsValue_decimal n, h, digitsValue_decimal]

theorem decimalInt_injective : Function.Injective decimalInt := by
  intro n n' h
  have hminus : ∀ (m : ℕ) (l : Bytes), decimal m ≠ ch '-' :: l := by
    intro m l heq
    exact notMem_decimal (c := ch '-') (by decide) m (heq ▸ List.mem_cons_self)
  unfold decimalInt at h
  split_ifs at h with hn hn' hn'
  · have := decimal_injective (List.cons.inj h).2
    omega
  · exact absurd h.symm (hminus _ _)
  · exact absurd h (hminus _ _)
  · have := decimal_injective h
    omega

/-- **The text of a number** tells it from all others iff it is below a million. -/
theorem coutDouble_determines_iff (n : ℕ) :
    (∀ n', coutDouble n' = coutDouble n → n' = n) ↔ n < 10 ^ 6 := by
  constructor
  · intro h
    by_contra hn
    obtain ⟨n', hne, heq⟩ := exists_ne_round6 (Nat.not_lt.mp hn)
    exact hne (h n' (by rw [coutDouble, coutDouble, heq]))
  · intro h n' heq
    rw [coutDouble_of_lt h] at heq
    rcases Nat.lt_or_ge n' (10 ^ 6) with h' | h'
    · rw [coutDouble_of_lt h'] at heq
      exact decimal_injective heq
    · have hmem := e_mem_coutDouble h'
      rw [heq] at hmem
      exact absurd hmem (notMem_decimal (by decide) n)

/-- What is printed has digits, `'.'`, `'e'` and `'+'` in it. -/
theorem notMem_coutDouble {c : UInt8} (hdigit : isDigit c = false) (hdot : c ≠ ch '.')
    (he : c ∉ bytes "e+") (n : ℕ) : c ∉ coutDouble n := by
  have hdecimal : ∀ m, c ∉ decimal m := notMem_decimal hdigit
  have hzero : c ≠ ch '0' := by
    rintro rfl
    exact absurd hdigit (by decide)
  have hdigits : ∀ m, c ∉ (decimal m).rdropWhile (· = ch '0') := fun m hmem =>
    hdecimal m ((List.rdropWhile_prefix _ _).subset hmem)
  have htake : ∀ m, c ∉ ((decimal m).rdropWhile (· = ch '0')).take 1 := fun m hmem =>
    hdigits m (List.mem_of_mem_take hmem)
  have hdrop : ∀ m, c ∉ ((decimal m).rdropWhile (· = ch '0')).drop 1 := fun m hmem =>
    hdigits m (List.mem_of_mem_drop hmem)
  unfold coutDouble scientific
  dsimp only
  split_ifs <;>
    simp only [List.mem_append, List.mem_cons, htake, hdrop, hdot, he, hzero, hdecimal,
      List.not_mem_nil, or_self, not_false_eq_true]

end CString
