import FacePerception.Lib.SqlText

/-!
# The statement of `Mysql::insert`

Model of `insert` (`mysql/mysql.h`, lines 42–73), which pastes its five arguments between
quotes. `mysql_query` takes the text as a C string, up to the first `'\0'`.

Results:
* `carriesData_iff`: which arguments the statement carries as data.
-/

namespace FacePerception.Mysql

open CString SqlText

/-- The arguments of `insert`, under the names of the members that keep them. -/
structure Row where
  name : Bytes
  subNumber : Bytes
  beginTime : Bytes
  endTime : Bytes
  workTime : Bytes
deriving DecidableEq

def Row.fields (r : Row) : List Bytes :=
  [r.name, r.subNumber, r.beginTime, r.endTime, r.workTime]

/-- `tmp` (lines 48–60). -/
def insertText (r : Row) : Bytes :=
  bytes "INSERT INTO mytest values" ++ bytes "('" ++ r.name ++ bytes "','" ++ r.subNumber ++
    bytes "','" ++ r.beginTime ++ bytes "','" ++ r.endTime ++ bytes "','" ++ r.workTime ++
    bytes "');"

/-- The text that `mysql_query` gets (line 63). -/
def insertQuery (r : Row) : Bytes := cstr (insertText r)

/-! ## The statement -/

/-- The tokens up to the first value. -/
def statementHead : List Token :=
  [.word (bytes "INSERT"), .word (bytes "INTO"), .word (bytes "mytest"), .word (bytes "values"),
    .punct (ch '(')]

/-- The statement that inserts these values. -/
def statement (values : List Bytes) : List Token :=
  statementHead ++ (values.map Token.str).intersperse (.punct (ch ',')) ++
    [.punct (ch ')'), .punct (ch ';')]

/-- The text is the statement that inserts the arguments, and nothing else. -/
def CarriesData (r : Row) : Prop := tokens (insertQuery r) = some (statement r.fields)

instance decidableCarriesData (r : Row) : Decidable (CarriesData r) :=
  inferInstanceAs (Decidable (_ = _))

/-! ## Field by field -/

/-- The text up to the first argument. -/
def textHead : Bytes := bytes "INSERT INTO mytest values('"

/-- The text behind the quote that ends a field, when these fields are left. -/
def afterField : List Bytes → Bytes
  | [] => bytes ");"
  | f :: fs => ch ',' :: QUOTE :: (f ++ QUOTE :: afterField fs)

/-- And its tokens. -/
def afterTokens : List Bytes → List Token
  | [] => [.punct (ch ')'), .punct (ch ';')]
  | f :: fs => .punct (ch ',') :: .str f :: afterTokens fs

theorem insertText_eq (r : Row) :
    insertText r = textHead ++ (r.name ++ QUOTE ::
      afterField [r.subNumber, r.beginTime, r.endTime, r.workTime]) := by
  have hhead : bytes "INSERT INTO mytest values" ++ bytes "('" = textHead := by decide
  have hsep : bytes "','" = [QUOTE, ch ',', QUOTE] := by decide
  have hend : bytes "');" = QUOTE :: bytes ");" := by decide
  rw [insertText, hhead, hsep, hend]
  simp [afterField]

theorem statement_fields (r : Row) :
    statement r.fields = statementHead ++ (.str r.name ::
      afterTokens [r.subNumber, r.beginTime, r.endTime, r.workTime]) := rfl

theorem textLength_afterTokens (fs : List Bytes) :
    textLength (afterTokens fs) = (afterField fs).length := by
  induction fs with
  | nil => rfl
  | cons f fs ih =>
    simp only [afterTokens, afterField, textLength_cons, Token.length, List.length_cons,
      List.length_append, ih]
    omega

theorem head?_afterField (fs : List Bytes) : (afterField fs).head? ≠ some QUOTE := by
  cases fs with
  | nil => decide
  | cons f fs =>
    show some (ch ',') ≠ some QUOTE
    decide

theorem nul_mem_afterField (fs : List Bytes) : NUL ∈ afterField fs ↔ ∃ f ∈ fs, NUL ∈ f := by
  have hcomma : NUL ≠ ch ',' := by decide
  have hquote : NUL ≠ QUOTE := by decide
  induction fs with
  | nil =>
    refine iff_of_false (by decide) ?_
    rintro ⟨f, hf, -⟩
    cases hf
  | cons f fs ih => simp [afterField, ih, hcomma, hquote]

theorem map_append_eq_some_iff (u : List Token) (o : Option (List Token)) (l : List Token) :
    o.map (u ++ ·) = some (u ++ l) ↔ o = some l :=
  (Option.map_injective (List.append_right_injective u)).eq_iff (b := some l)

theorem scan_comma (s : Bytes) : scan .between (ch ',' :: QUOTE :: s) =
    (scan (.literal []) s).map ([.punct (ch ',')] ++ ·) := by
  have hrun : run .between [ch ',', QUOTE] = (.literal [], [.punct (ch ',')]) := by decide
  have happend := scan_append .between [ch ',', QUOTE] s
  rwa [hrun] at happend

/-- A literal is read back together with the fields behind it. -/
theorem scan_field_iff (f : Bytes) (fs : List Bytes) :
    scan (.literal []) (f ++ QUOTE :: afterField fs) = some (.str f :: afterTokens fs) ↔
      Verbatim f ∧ scan .between (afterField fs) = some (afterTokens fs) :=
  scan_literal_iff (head?_afterField fs) (textLength_afterTokens fs).ge f []

/-- **The fields are read back** one after the other, if each is verbatim. -/
theorem scan_afterField_iff (fs : List Bytes) :
    scan .between (afterField fs) = some (afterTokens fs) ↔ ∀ f ∈ fs, Verbatim f := by
  induction fs with
  | nil => exact iff_of_true (by decide) (by simp)
  | cons f fs ih =>
    have hmap := map_append_eq_some_iff [.punct (ch ',')]
      (scan (.literal []) (f ++ QUOTE :: afterField fs)) (.str f :: afterTokens fs)
    rw [List.forall_mem_cons, ← ih, ← scan_field_iff, ← hmap, ← scan_comma]
    rfl

/-- The text behind its head, without `'\0'` or cut off at the first. -/
theorem scan_cstr_iff (f : Bytes) (fs : List Bytes) :
    scan (.literal []) (cstr (f ++ QUOTE :: afterField fs)) =
        some (.str f :: afterTokens fs) ↔
      ∀ g ∈ f :: fs, NUL ∉ g ∧ Verbatim g := by
  have hquote : NUL ≠ QUOTE := by decide
  have hmem : NUL ∈ f ++ QUOTE :: afterField fs ↔ ∃ g ∈ f :: fs, NUL ∈ g := by
    simp [nul_mem_afterField, hquote]
  by_cases hnul : NUL ∈ f ++ QUOTE :: afterField fs
  · refine iff_of_false ?_ ?_
    · have hlt := length_cstr_lt hnul
      rw [List.length_append, List.length_cons] at hlt
      apply scan_ne_of_length_lt
      rw [textLength_cons, textLength_afterTokens, Token.length, State.length, List.length_nil]
      omega
    · intro h
      obtain ⟨g, hg, hmem⟩ := hmem.mp hnul
      exact (h g hg).1 hmem
  · have hfree : ∀ g ∈ f :: fs, NUL ∉ g := fun g hg hmemg => hnul (hmem.mpr ⟨g, hg, hmemg⟩)
    rw [cstr_eq_self hnul, scan_field_iff, scan_afterField_iff, ← List.forall_mem_cons]
    exact forall₂_congr fun g hg => (and_iff_right (hfree g hg)).symm

/-- **The arguments are carried as data** iff each is without `'\0'` and verbatim. -/
theorem carriesData_iff (r : Row) :
    CarriesData r ↔ ∀ f ∈ r.fields, NUL ∉ f ∧ Verbatim f := by
  have hcstr : ∀ s, cstr (textHead ++ s) = textHead ++ cstr s := fun s =>
    List.takeWhile_append_of_pos (by decide +kernel)
  have hrun : run .between textHead = (.literal [], statementHead) := by decide +kernel
  rw [CarriesData, insertQuery, insertText_eq, hcstr, tokens, scan_append, hrun, statement_fields,
    map_append_eq_some_iff]
  exact scan_cstr_iff _ _

/-- A name with a quote, and one that ends with a backslash. -/
theorem not_carriesData_quote :
    ¬ CarriesData ⟨bytes "o'neil", bytes "7", bytes "08:00", bytes "16:00", bytes "8"⟩ ∧
      ¬ CarriesData ⟨bytes "a\\", bytes "7", bytes "08:00", bytes "16:00", bytes "8"⟩ := by
  decide +kernel

end FacePerception.Mysql
