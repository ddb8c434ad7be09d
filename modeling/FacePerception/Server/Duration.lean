import FacePerception.Lib.CString
import FacePerception.Server.WorkTime

/-!
# The text of a duration

Models of `int_to_str` and `int_to_string` (`server/server_http.h`, lines 135–180): the
counters of a record in decimal, with `':'` between them. `data` is a `double` with a whole
number for its value, and may be negative here.

Results:
* `intToString_eq`: the text.
* `total_eq_iff`: counters in range stand for a time in one way only.
* `intToString_decodes`: the text gives back the counters, and for counters in range it is
  as good as the time.
-/

namespace FacePerception.Server

open CString CNum

def INT_TO_STR_SIZE : ℕ := 255

/-- What `int_to_string` reads of a record. -/
structure Counters where
  data : ℤ
  hour : ℤ
  min : ℤ
  sec : ℤ

def UserNode.counters (r : UserNode) : Counters := ⟨r.data, r.hour, r.min, r.sec⟩

/-- `memset(buf,'\0',sizeof(buf))`. -/
def clearBuf (buf : Bytes) : Bytes := List.replicate buf.length NUL

/-- `int_to_str` (lines 135–139): `buf` behind it. -/
def intToStr (key : ℤ) (buf : Bytes) : Bytes :=
  decimalInt key ++ NUL :: buf.drop ((decimalInt key).length + 1)

/-- `int_to_string` (lines 140–180). -/
def intToString (cur : Counters) : Bytes :=
  let flag := bytes ":"
  let buf := List.replicate INT_TO_STR_SIZE NUL
  let buf := intToStr (doubleToInt cur.data) buf
  let tmp := cstr buf ++ flag
  let buf := intToStr cur.hour (clearBuf buf)
  let tmp := tmp ++ cstr buf ++ flag
  let buf := intToStr cur.min (clearBuf buf)
  let tmp := tmp ++ cstr buf ++ flag
  let buf := intToStr cur.sec (clearBuf buf)
  tmp ++ cstr buf

/-! ## What the text says -/

/-- The value of an `int`. -/
def IsInt (n : ℤ) : Prop := intMin ≤ n ∧ n ≤ intMax

/-- All counters are `int`s, and `data` fits in one. -/
structure Counters.Ints (c : Counters) : Prop where
  data : IsInt c.data
  hour : IsInt c.hour
  min : IsInt c.min
  sec : IsInt c.sec

/-- The counters are digits; there are any number of days. -/
structure Counters.Digits (c : Counters) : Prop where
  sec_nonneg : 0 ≤ c.sec
  sec_lt : c.sec < 60
  min_nonneg : 0 ≤ c.min
  min_lt : c.min < 60
  hour_nonneg : 0 ≤ c.hour
  hour_lt : c.hour < 8

/-- The seconds the counters stand for. -/
def Counters.total (c : Counters) : ℤ := c.sec + 60 * c.min + 3600 * c.hour + 28800 * c.data

/-- Digits, behind a minus sign or without one. -/
def DecimalField (f : Bytes) : Prop :=
  ∃ ds, ds ≠ [] ∧ (∀ c ∈ ds, isDigit c = true) ∧ (f = ds ∨ f = ch '-' :: ds)

/-- The text falls at `':'` into these decimal fields. -/
structure Decodes (text : Bytes) (values : List ℤ) : Prop where
  decimal : ∀ f ∈ text.splitOn (ch ':'), DecimalField f
  values : (text.splitOn (ch ':')).map atoi = values

theorem decimalField_decimalInt (n : ℤ) : DecimalField (decimalInt n) := by
  rw [decimalInt]
  split_ifs
  · exact ⟨_, decimal_ne_nil _, isDigit_decimal _, Or.inr rfl⟩
  · exact ⟨_, decimal_ne_nil _, isDigit_decimal _, Or.inl rfl⟩

theorem colon_notMem_decimalInt (n : ℤ) : ch ':' ∉ decimalInt n :=
  notMem_decimalInt (by decide) (by decide) n

/-- Whatever the buffer holds, the string in it is the number. -/
theorem cstr_intToStr (key : ℤ) (buf : Bytes) : cstr (intToStr key buf) = decimalInt key :=
  cstr_append_NUL (notMem_decimalInt (by decide) (by decide) key) _

/-- The four numbers, in the order of the text. -/
def Counters.fields (c : Counters) : List Bytes := [c.data, c.hour, c.min, c.sec].map decimalInt

/-- **The text** has the four numbers with `':'` between them. -/
theorem intToString_eq {c : Counters} (h : IsInt c.data) :
    intToString c = [ch ':'].intercalate c.fields := by
  have hflag : bytes ":" = [ch ':'] := by decide
  simp only [intToString, cstr_intToStr, doubleToInt_of_range h.1 h.2, hflag, Counters.fields]
  simp [List.intercalate, List.intersperse]

theorem splitOn_intToString {c : Counters} (h : IsInt c.data) :
    (intToString c).splitOn (ch ':') = c.fields := by
  rw [intToString_eq h]
  refine List.splitOn_intercalate (ch ':') ?_ (by simp [Counters.fields])
  intro f hf
  obtain ⟨n, -, rfl⟩ := List.mem_map.mp hf
  exact colon_notMem_decimalInt n

/-- **The text gives back the counters.** -/
theorem decodes_intToString {c : Counters} (h : c.Ints) :
    Decodes (intToString c) [c.data, c.hour, c.min, c.sec] := by
  have hsplit := splitOn_intToString h.data
  constructor
  · rw [hsplit]
    intro f hf
    obtain ⟨n, -, rfl⟩ := List.mem_map.mp hf
    exact decimalField_decimalInt n
  · rw [hsplit, Counters.fields, List.map_map]
    simp only [List.map_cons, List.map_nil, Function.comp_apply,
      atoi_decimalInt h.data.1 h.data.2, atoi_decimalInt h.hour.1 h.hour.2,
      atoi_decimalInt h.min.1 h.min.2, atoi_decimalInt h.sec.1 h.sec.2]

/-- **Counters in range stand for a time in one way only.** -/
theorem total_eq_iff {c c' : Counters} (hc : c.Digits) (hc' : c'.Digits) :
    c.total = c'.total ↔ c = c' := by
  constructor
  · intro h
    obtain ⟨d, hr, m, s⟩ := c
    obtain ⟨d', hr', m', s'⟩ := c'
    obtain ⟨h1, h2, h3, h4, h5, h6⟩ := hc
    obtain ⟨h1', h2', h3', h4', h5', h6'⟩ := hc'
    simp only [Counters.total] at *
    obtain rfl : s = s' := by omega
    obtain rfl : m = m' := by omega
    obtain rfl : hr = hr' := by omega
    obtain rfl : d = d' := by omega
    rfl
  · rintro rfl
    rfl

theorem intToString_injective {c c' : Counters} (hc : c.Ints) (hc' : c'.Ints)
    (h : intToString c = intToString c') : c = c' := by
  have hvalues := (decodes_intToString hc).values
  rw [h, (decodes_intToString hc').values] at hvalues
  obtain ⟨d, hr, m, s⟩ := c
  obtain ⟨d', hr', m', s'⟩ := c'
  simpa [eq_comm] using hvalues

/-- **The duration text is uniquely decodable**; between counters in range it tells times
apart, and nothing else. -/
theorem intToString_decodes {c c' : Counters} (hc : c.Ints) (hc' : c'.Ints) :
    Decodes (intToString c) [c.data, c.hour, c.min, c.sec] ∧
      (c.Digits → c'.Digits → (intToString c = intToString c' ↔ c.total = c'.total)) := by
  refine ⟨decodes_intToString hc, fun hdigits hdigits' => ?_⟩
  rw [total_eq_iff hdigits hdigits']
  constructor
  · exact intToString_injective hc hc'
  · exact congrArg intToString

theorem ints_example : Counters.Ints ⟨-2147483648, 0, 59, 2147483647⟩ ∧
    Counters.Ints ⟨1, 7, 59, 30⟩ ∧ Counters.Ints ⟨2, 0, 0, 0⟩ := by
  refine ⟨?_, ?_, ?_⟩
  all_goals
    constructor
    all_goals exact ⟨by decide, by decide⟩

/-- Both ends of the range of an `int`; and a minute before the end of a day. -/
theorem intToString_decodes_example :
    Decodes (intToString ⟨-2147483648, 0, 59, 2147483647⟩) [-2147483648, 0, 59, 2147483647] ∧
      (intToString ⟨1, 7, 59, 30⟩ = intToString ⟨2, 0, 0, 0⟩ ↔
        Counters.total ⟨1, 7, 59, 30⟩ = Counters.total ⟨2, 0, 0, 0⟩) := by
  obtain ⟨h₁, h₂, h₃⟩ := ints_example
  have hdigits : Counters.Digits ⟨1, 7, 59, 30⟩ := by constructor <;> decide
  have hdigits' : Counters.Digits ⟨2, 0, 0, 0⟩ := by constructor <;> decide
  exact ⟨(intToString_decodes h₁ h₁).1, (intToString_decodes h₂ h₃).2 hdigits hdigits'⟩

end FacePerception.Server
