import FacePerception.Lib.CNum
import FacePerception.Lib.Split
import Mathlib.Data.Nat.Digits.Lemmas

/-!
# C strings and the decimal conversions of the C library

A `char` is a `UInt8`. A pointer into a zero-filled array is the list of the
bytes from it on: reading past the list gives `'\0'`.

* `atoi_spaces_decimal`: `atoi` of spaces, the decimal form of `n` and any byte
  that is not a digit is `n`, for `n < 2^31`.
* `digitsValue_tail_lt`: dropping the first digit of `n ≥ 1` gives a smaller
  number.
* `atoi_decimalInt`: `atoi` of the decimal form of an `int` is that `int`.
-/

namespace CString

abbrev Bytes : Type := List UInt8

/-- The code of an ASCII character. -/
def ch (c : Char) : UInt8 := c.toNat.toUInt8

/-- The bytes of an ASCII string literal. -/
def bytes (s : String) : Bytes := s.toList.map ch

def NUL : UInt8 := 0
def LF : UInt8 := 10
def CR : UInt8 := 13

/-- `*p`. -/
def deref (p : Bytes) : UInt8 := p.headD NUL

/-- The string `p` points to: the bytes before the first `'\0'`. -/
def cstr (p : Bytes) : Bytes := p.takeWhile (· ≠ NUL)

/-- `strlen`. -/
def strlen (p : Bytes) : ℕ := (cstr p).length

/-- `tolower` in the C locale. -/
def toLower (c : UInt8) : UInt8 := if ch 'A' ≤ c ∧ c ≤ ch 'Z' then c + 32 else c

/-- `strcasecmp(a,b)==0`. -/
def strcaseEq (a b : Bytes) : Bool := a.map toLower = b.map toLower

/-- `strncmp(a,b,n)==0`. -/
def strncmpEq (a b : Bytes) (n : ℕ) : Bool := (cstr a).take n = (cstr b).take n

/-- `strncasecmp(a,b,n)==0`. -/
def strncaseEq (a b : Bytes) (n : ℕ) : Bool :=
  ((cstr a).take n).map toLower = ((cstr b).take n).map toLower

/-- `isspace` in the C locale. -/
def isSpace (c : UInt8) : Bool := c = ch ' ' ∨ 9 ≤ c ∧ c ≤ 13

/-- `isdigit`. -/
def isDigit (c : UInt8) : Bool := ch '0' ≤ c ∧ c ≤ ch '9'

/-- The number a run of digits stands for. -/
def digitsValue (s : Bytes) : ℕ := s.foldl (fun v c => 10 * v + (c.toNat - 48)) 0

/-- `strtol(s, NULL, 10)`: blanks, an optional sign, digits; clamped to `long`. -/
def strtol (s : Bytes) : ℤ :=
  let s := s.dropWhile isSpace
  let v : ℤ :=
    if deref s = ch '-' then -(digitsValue (s.tail.takeWhile isDigit) : ℤ)
    else if deref s = ch '+' then digitsValue (s.tail.takeWhile isDigit)
    else digitsValue (s.takeWhile isDigit)
  max (-2 ^ 63) (min (2 ^ 63 - 1) v)

/-- `atoi(s)`, which is `(int)strtol(s, NULL, 10)`. -/
def atoi (s : Bytes) : ℤ := CNum.longToInt (strtol s)

/-- The digit character of `d < 10`. -/
def digitChar (d : ℕ) : UInt8 := UInt8.ofNat (48 + d)

/-- `sprintf("%d", n)` for `n ≥ 0`. -/
def decimal (n : ℕ) : Bytes :=
  if n = 0 then [digitChar 0] else ((Nat.digits 10 n).map digitChar).reverse

/-- `sprintf("%d", n)`. -/
def decimalInt (n : ℤ) : Bytes :=
  if n < 0 then ch '-' :: decimal n.natAbs else decimal n.toNat

/-! ## Strings -/

theorem cstr_eq_self {s : Bytes} (h : NUL ∉ s) : cstr s = s := List.takeWhile_ne_of_notMem h

/-- A string ends at its first `'\0'`. -/
theorem cstr_append_NUL {s : Bytes} (h : NUL ∉ s) (t : Bytes) : cstr (s ++ NUL :: t) = s :=
  List.takeWhile_ne_append h t

theorem cstr_append {s : Bytes} (h : NUL ∉ s) (t : Bytes) : cstr (s ++ t) = s ++ cstr t :=
  List.takeWhile_append_of_pos fun _ hc => decide_eq_true fun heq => h (heq ▸ hc)

theorem cstr_cons {c : UInt8} (h : c ≠ NUL) (s : Bytes) : cstr (c :: s) = c :: cstr s :=
  List.takeWhile_cons_of_pos (decide_eq_true h)

theorem nul_notMem_cstr (s : Bytes) : NUL ∉ cstr s := by
  intro hmem
  have hne := List.mem_takeWhile_imp hmem
  exact absurd hne (by simp)

theorem deref_eq_NUL_iff (s : Bytes) : deref s = NUL ↔ cstr s = [] := by
  cases s with
  | nil => exact iff_of_true rfl rfl
  | cons c s =>
    show c = NUL ↔ _
    by_cases hc : c = NUL
    · exact iff_of_true hc (List.takeWhile_cons_of_neg (by simpa using hc))
    · rw [cstr_cons hc]
      exact iff_of_false hc (List.cons_ne_nil _ _)

/-- A `'\0'` cuts a string off. -/
theorem length_cstr_lt {s : Bytes} (h : NUL ∈ s) : (cstr s).length < s.length := by
  have hpre : cstr s <+: s := List.takeWhile_prefix _
  refine Nat.lt_of_le_of_ne hpre.length_le fun hlen => ?_
  have hself : cstr s = s := hpre.eq_of_length hlen
  have hne := List.takeWhile_eq_self_iff.mp hself NUL h
  exact absurd rfl (of_decide_eq_true hne)

theorem toLower_eq_LF (c : UInt8) : toLower c = LF ↔ c = LF := by
  unfold toLower LF
  split_ifs with h
  · have h1 : 65 ≤ c.toNat := UInt8.le_iff_toNat_le.mp h.1
    have h2 : c.toNat ≤ 90 := UInt8.le_iff_toNat_le.mp h.2
    constructor
    · intro heq
      have := congrArg UInt8.toNat heq
      rw [UInt8.toNat_add] at this
      change (c.toNat + 32) % 256 = 10 at this
      omega
    · rintro rfl
      exact absurd h1 (by decide)
  · exact Iff.rfl

/-- Comparing with `"\n"` without regard to case is comparing with `"\n"`. -/
theorem strcaseEq_LF (s : Bytes) : strcaseEq s [LF] = true ↔ s = [LF] := by
  have hLF : toLower LF = LF := by decide
  simp only [strcaseEq, List.map_cons, List.map_nil, hLF, decide_eq_true_eq]
  constructor
  · intro h
    obtain ⟨c, rfl⟩ := List.length_eq_one_iff.mp (by simpa using congrArg List.length h)
    rw [List.map_cons, List.map_nil, List.cons.injEq] at h
    rw [(toLower_eq_LF c).mp h.1]
  · rintro rfl
    simp [hLF]

/-! ## Decimal conversions -/

theorem toNat_digitChar {d : ℕ} (h : d < 10) : (digitChar d).toNat = 48 + d := by
  rw [digitChar, UInt8.toNat_ofNat']
  omega

theorem isDigit_digitChar {d : ℕ} (h : d < 10) : isDigit (digitChar d) = true := by
  have hd := toNat_digitChar h
  simp only [isDigit, decide_eq_true_eq, UInt8.le_iff_toNat_le, hd]
  show 48 ≤ 48 + d ∧ 48 + d ≤ 57
  omega

/-- A digit is none of the other characters `strtol` looks at. -/
theorem isDigit_ne {c : UInt8} (h : isDigit c = true) :
    isSpace c = false ∧ c ≠ ch '-' ∧ c ≠ ch '+' ∧ c ≠ ch ' ' ∧ c ≠ NUL ∧ c ≠ LF ∧ c ≠ CR := by
  simp only [isDigit, decide_eq_true_eq, UInt8.le_iff_toNat_le] at h
  obtain ⟨h1, h2⟩ := h
  change 48 ≤ c.toNat at h1
  have hne : ∀ {k : UInt8}, k.toNat < 48 → c ≠ k := by
    rintro k hk rfl
    omega
  refine ⟨?_, hne (by decide), hne (by decide), hne (by decide), hne (by decide),
    hne (by decide), hne (by decide)⟩
  simp only [isSpace, decide_eq_false_iff_not, not_or, not_and, UInt8.le_iff_toNat_le]
  refine ⟨hne (by decide), fun _ h3 => ?_⟩
  change c.toNat ≤ 13 at h3
  omega

theorem isDigit_decimal (n : ℕ) : ∀ c ∈ decimal n, isDigit c = true := by
  intro c hc
  rw [decimal] at hc
  split_ifs at hc
  · rw [List.mem_singleton.mp hc]
    exact isDigit_digitChar (by norm_num)
  · obtain ⟨d, hd, rfl⟩ := List.mem_map.mp (List.mem_reverse.mp hc)
    exact isDigit_digitChar (Nat.digits_lt_base (by norm_num) hd)

theorem decimal_ne_nil (n : ℕ) : decimal n ≠ [] := by
  rw [decimal]
  split_ifs with h
  · simp
  · simpa using Nat.digits_ne_nil_iff_ne_zero.mpr h

/-- Reading digits from the most significant on is `Nat.ofDigits` backwards. -/
theorem digitsValue_map_reverse (ds : List ℕ) (h : ∀ d ∈ ds, d < 10) :
    digitsValue (ds.map digitChar).reverse = Nat.ofDigits 10 ds := by
  induction ds with
  | nil => rfl
  | cons d ds ih =>
    have hd : (digitChar d).toNat = 48 + d := toNat_digitChar (h d (by simp))
    rw [List.map_cons, List.reverse_cons, digitsValue, List.foldl_append, List.foldl_cons,
      List.foldl_nil, ← digitsValue, ih (fun d hd => h d (by simp [hd])), hd, Nat.ofDigits_cons]
    omega

theorem digitsValue_decimal (n : ℕ) : digitsValue (decimal n) = n := by
  rw [decimal]
  split_ifs with h
  · subst h; rfl
  · rw [digitsValue_map_reverse _ (fun d hd => Nat.digits_lt_base (by norm_num) hd),
      Nat.ofDigits_digits]

/-- Without its first digit a positive number gets smaller. -/
theorem digitsValue_tail_lt {n : ℕ} (hn : 1 ≤ n) : digitsValue (decimal n).tail < n := by
  have h10 : ∀ d ∈ Nat.digits 10 n, d < 10 := fun d hd => Nat.digits_lt_base (by norm_num) hd
  have h10' : ∀ d ∈ (Nat.digits 10 n).dropLast, d < 10 :=
    fun d hd => h10 d (List.dropLast_subset _ hd)
  rw [decimal, if_neg (by omega), List.tail_reverse, ← List.map_dropLast,
    digitsValue_map_reverse _ h10']
  have hlen : 0 < (Nat.digits 10 n).length := by
    rw [List.length_pos_iff, Nat.digits_ne_nil_iff_ne_zero]
    omega
  have hpow := Nat.base_pow_length_digits_le 10 n (by norm_num) (by omega)
  rw [show (Nat.digits 10 n).length = (Nat.digits 10 n).length - 1 + 1 by omega, pow_succ] at hpow
  calc Nat.ofDigits 10 (Nat.digits 10 n).dropLast
      < 10 ^ (Nat.digits 10 n).dropLast.length :=
        Nat.ofDigits_lt_base_pow_length (by norm_num) h10'
    _ = 10 ^ ((Nat.digits 10 n).length - 1) := by rw [List.length_dropLast]
    _ ≤ n := by omega

/-- `strtol` on blanks, digits and what follows the digits. -/
theorem strtol_spaces_digits (k : ℕ) (ds rest : Bytes) (hne : ds ≠ [])
    (hds : ∀ c ∈ ds, isDigit c = true) (hrest : ∀ c ∈ rest.head?, isDigit c = false)
    (hmax : digitsValue ds < 2 ^ 63) :
    strtol (List.replicate k (ch ' ') ++ (ds ++ rest)) = digitsValue ds := by
  have hdrop : (List.replicate k (ch ' ') ++ (ds ++ rest)).dropWhile isSpace = ds ++ rest := by
    rw [List.dropWhile_append_of_pos (by simp +contextual [isSpace])]
    obtain ⟨d, ds, rfl⟩ := List.exists_cons_of_ne_nil hne
    rw [List.cons_append, List.dropWhile_cons_of_neg]
    rw [(isDigit_ne (hds d (by simp))).1]
    simp
  have htake : (ds ++ rest).takeWhile isDigit = ds := by
    rw [List.takeWhile_append_of_pos hds]
    cases rest with
    | nil => simp
    | cons c rest =>
      rw [List.takeWhile_cons_of_neg (by simpa using hrest c rfl), List.append_nil]
  have hhead : deref (ds ++ rest) ≠ ch '-' ∧ deref (ds ++ rest) ≠ ch '+' := by
    obtain ⟨d, ds, rfl⟩ := List.exists_cons_of_ne_nil hne
    have := isDigit_ne (hds d (by simp))
    exact ⟨this.2.1, this.2.2.1⟩
  simp only [strtol, hdrop, htake, if_neg hhead.1, if_neg hhead.2]
  omega

theorem atoi_spaces_digits (k : ℕ) (ds rest : Bytes) (hne : ds ≠ [])
    (hds : ∀ c ∈ ds, isDigit c = true) (hrest : ∀ c ∈ rest.head?, isDigit c = false)
    (hmax : digitsValue ds < 2 ^ 31) :
    atoi (List.replicate k (ch ' ') ++ (ds ++ rest)) = digitsValue ds := by
  rw [atoi, strtol_spaces_digits k ds rest hne hds hrest (by omega)]
  apply CNum.longToInt_of_range
  · unfold CNum.intMin; omega
  · unfold CNum.intMax; omega

/-- `atoi` reads back the decimal form, whatever number of spaces precede it. -/
theorem atoi_spaces_decimal (k : ℕ) {n : ℕ} (hn : n < 2 ^ 31) (rest : Bytes)
    (hrest : ∀ c ∈ rest.head?, isDigit c = false) :
    atoi (List.replicate k (ch ' ') ++ (decimal n ++ rest)) = n := by
  rw [atoi_spaces_digits k _ rest (decimal_ne_nil n) (isDigit_decimal n) hrest
    (by rw [digitsValue_decimal]; exact hn), digitsValue_decimal]

/-- `strtol` of a minus sign and a number. -/
theorem strtol_neg_decimal {n : ℕ} (hn : n ≤ 2 ^ 63) : strtol (ch '-' :: decimal n) = -n := by
  have hspace : ¬ isSpace (ch '-') = true := by decide
  have htake : (decimal n).takeWhile isDigit = decimal n :=
    List.takeWhile_eq_self_iff.mpr (isDigit_decimal n)
  rw [strtol, List.dropWhile_cons_of_neg hspace]
  simp only [deref, List.headD_cons, if_true, List.tail_cons, htake, digitsValue_decimal]
  omega

/-- **`atoi` reads back the decimal form of an `int`**, with its sign. -/
theorem atoi_decimalInt {n : ℤ} (hmin : CNum.intMin ≤ n) (hmax : n ≤ CNum.intMax) :
    atoi (decimalInt n) = n := by
  have hmin' : -2 ^ 31 ≤ n := hmin
  have hmax' : n ≤ 2 ^ 31 - 1 := hmax
  rw [decimalInt]
  split_ifs with hneg
  · rw [atoi, strtol_neg_decimal (by omega)]
    have habs : -(n.natAbs : ℤ) = n := by omega
    rw [habs, CNum.longToInt_of_range hmin hmax]
  · have hread := atoi_spaces_decimal 0 (n := n.toNat) (by omega) [] (by simp)
    rw [List.replicate_zero, List.nil_append, List.append_nil] at hread
    rw [hread]
    omega

theorem notMem_decimalInt {c : UInt8} (hdigit : isDigit c = false) (hminus : c ≠ ch '-') (n : ℤ) :
    c ∉ decimalInt n := by
  have hdecimal : ∀ k, c ∉ decimal k := by
    intro k hmem
    rw [isDigit_decimal k c hmem] at hdigit
    exact absurd hdigit (by simp)
  rw [decimalInt]
  split_ifs
  · rw [List.mem_cons, not_or]
    exact ⟨hminus, hdecimal _⟩
  · exact hdecimal _

end CString
