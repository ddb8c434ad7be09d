import FacePerception.Mysql.Insert

/-!
# The table and its page

Models of `show_table` (`mysql/mysql.h`, lines 98–124) and of `main` of
`cgi_bin/data_base_show.cpp` (lines 13–49), over the table that calls of `insert` have
filled. The table has five columns and `ROW` is 4, so that the fifth column goes behind
`name` and, in `out_str`, into the first cell of the next row.

Results:
* `rows_page`: what is printed are the first four columns.
* `not_comesBack`: no sequence of calls of `insert` comes back as it was.
-/

namespace FacePerception.Mysql

open CString CNum SqlText

/-! ## The table -/

/-- The table `mytest`: the names of its columns, and its rows. -/
structure Table where
  columns : Row
  rows : List Row

/-- The values of an `INSERT`, behind the opening bracket. -/
def parseValues : List Token → Option (List Bytes)
  | [.str v, .punct c, .punct d] => if c = ch ')' ∧ d = ch ';' then some [v] else none
  | .str v :: .punct c :: toks => if c = ch ',' then (parseValues toks).map (v :: ·) else none
  | _ => none

/-- The row that a statement inserts, if it gives each column a value. -/
def parseInsert (toks : List Token) : Option Row :=
  if toks.take 5 = statementHead then
    match parseValues (toks.drop 5) with
    | some [name, subNumber, beginTime, endTime, workTime] =>
      some ⟨name, subNumber, beginTime, endTime, workTime⟩
    | _ => none
  else none

/-- `insert` (lines 42–73). -/
def insert (t : Table) (r : Row) : Bool × Table :=
  match (tokens (insertQuery r)).bind parseInsert with
  | some row => (true, { t with rows := t.rows ++ [row] })
  | none => (false, t)

/-- Any number of calls of `insert`. -/
def inserts (t : Table) (calls : List Row) : Table := calls.foldl (fun t r => (insert t r).2) t

/-! ## `show_table` -/

def ROW : ℕ := 4

/-- What `show_table` leaves: `*line`, and the values it has stored, with the indices. -/
structure Shown where
  line : ℤ
  name : List (ℕ × Bytes)
  outStr : List ((ℕ × ℕ) × Bytes)

/-- The inner loop (lines 118–119): a row of the table goes to row `index` of `out_str`. -/
def rowStores (index : ℕ) (row : Row) : List ((ℕ × ℕ) × Bytes) :=
  row.fields.zipIdx.map fun (value, start) => ((index, start), cstr value)

/-- The outer loop (lines 113–121). -/
def outStores (rows : List Row) : List ((ℕ × ℕ) × Bytes) :=
  rows.zipIdx.flatMap fun (row, index) => rowStores index row

/-- `show_table` (lines 98–124). -/
def showTable (t : Table) : Shown :=
  let line := longToInt t.rows.length
  { line := line,
    name := t.columns.fields.zipIdx.map fun (value, i) => (i, cstr value),
    outStr := outStores (t.rows.take line.toNat) }

/-! ## The page -/

/-- `name[i]`. -/
def Shown.nameAt (s : Shown) : ℕ → Bytes :=
  s.name.foldl (fun mem store => Function.update mem store.1 store.2) fun _ => []

/-- A value is stored in `out_str`: row `index` begins at `index * ROW`. -/
def assign (mem : ℕ → Bytes) (store : (ℕ × ℕ) × Bytes) : ℕ → Bytes :=
  Function.update mem (store.1.1 * ROW + store.1.2) store.2

/-- What `out_str` holds at an offset. -/
def outMemory (stores : List ((ℕ × ℕ) × Bytes)) : ℕ → Bytes := stores.foldl assign fun _ => []

/-- The cells that `data_base_show` prints. -/
structure Page where
  header : List Bytes
  rows : List (List Bytes)

/-- The loops of `main` (`data_base_show.cpp`, lines 33–45). -/
def page (s : Shown) : Page where
  header := (List.range ROW).map s.nameAt
  rows := (List.range s.line.toNat).map fun i =>
    (List.range ROW).map fun j => outMemory s.outStr (i * ROW + j)

/-! ## What comes back -/

/-- Every index is inside its array. -/
def Shown.InRange (s : Shown) : Prop :=
  (∀ store ∈ s.name, store.1 < ROW) ∧
    ∀ store ∈ s.outStr, store.1.1 < 1024 ∧ store.1.2 < ROW

/-- The rows that were inserted are shown as they were inserted. -/
def ComesBack (columns : Row) (calls : List Row) : Prop :=
  let t := inserts ⟨columns, []⟩ calls
  (showTable t).line = t.rows.length ∧ (showTable t).InRange ∧
    (page (showTable t)).rows = calls.map Row.fields

/-! ### The table -/

theorem parseInsert_statement (r : Row) : parseInsert (statement r.fields) = some r := by
  have hhead : (statement r.fields).take 5 = statementHead := rfl
  have hvalues : parseValues ((statement r.fields).drop 5) = some r.fields := rfl
  rw [parseInsert, if_pos hhead, hvalues]
  rfl

theorem insert_of_carriesData {r : Row} (h : CarriesData r) (t : Table) :
    insert t r = (true, { t with rows := t.rows ++ [r] }) := by
  have hrow : (tokens (insertQuery r)).bind parseInsert = some r := by
    rw [show tokens (insertQuery r) = _ from h, Option.bind_some, parseInsert_statement]
  rw [insert, hrow]

/-- What is carried as data is in the table, in the order of the calls. -/
theorem inserts_of_carriesData {calls : List Row} (h : ∀ r ∈ calls, CarriesData r) (t : Table) :
    inserts t calls = { t with rows := t.rows ++ calls } := by
  induction calls generalizing t with
  | nil => simp [inserts]
  | cons r calls ih =>
    obtain ⟨hr, hcalls⟩ := List.forall_mem_cons.mp h
    have hrest := ih hcalls { t with rows := t.rows ++ [r] }
    rw [inserts] at hrest
    rw [inserts, List.foldl_cons, insert_of_carriesData hr, hrest, List.append_assoc]
    rfl

/-! ### The array -/

theorem outStores_concat (rows : List Row) (r : Row) :
    outStores (rows ++ [r]) = outStores rows ++ rowStores rows.length r := by
  rw [outStores, outStores, List.zipIdx_append, List.flatMap_append]
  simp

theorem rowStores_eq (k : ℕ) (r : Row) : rowStores k r =
    [((k, 0), cstr r.name), ((k, 1), cstr r.subNumber), ((k, 2), cstr r.beginTime),
      ((k, 3), cstr r.endTime), ((k, 4), cstr r.workTime)] := rfl

/-- Storing a row leaves the rows before it. -/
theorem foldl_rowStores_of_lt (mem : ℕ → Bytes) (r : Row) {i k j : ℕ} (hi : i < k)
    (hj : j < ROW) : (rowStores k r).foldl assign mem (i * ROW + j) = mem (i * ROW + j) := by
  have hne : ∀ start, i * ROW + j ≠ k * ROW + start := by
    intro start
    unfold ROW at *
    omega
  simp only [rowStores_eq, List.foldl_cons, List.foldl_nil, assign, Function.update_of_ne (hne _)]

/-- And stores the first four values where the row is read. -/
theorem foldl_rowStores_self (mem : ℕ → Bytes) (r : Row) (k : ℕ) :
    ((List.range ROW).map fun j => (rowStores k r).foldl assign mem (k * ROW + j)) =
      (r.fields.take ROW).map cstr := by
  have hrange : List.range ROW = [0, 1, 2, 3] := rfl
  rw [hrange, rowStores_eq]
  simp [assign, Row.fields, ROW, Function.update]

/-- **The array behind the loops** holds the first four values of each row: the fifth has
been overwritten by the next row. -/
theorem cells_outStores (rows : List Row) :
    ((List.range rows.length).map fun i => (List.range ROW).map fun j =>
      outMemory (outStores rows) (i * ROW + j)) =
      rows.map fun r => (r.fields.take ROW).map cstr := by
  induction rows using List.reverseRecOn with
  | nil => rfl
  | append_singleton rows r ih =>
    have hmem : outMemory (outStores (rows ++ [r])) =
        (rowStores rows.length r).foldl assign (outMemory (outStores rows)) := by
      rw [outStores_concat, outMemory, List.foldl_append]
      rfl
    rw [List.length_append, List.length_singleton, List.range_succ, List.map_append,
      List.map_append, ← ih, hmem]
    congr 1
    · apply List.map_congr_left
      intro i hi
      apply List.map_congr_left
      intro j hj
      exact foldl_rowStores_of_lt _ r (List.mem_range.mp hi) (List.mem_range.mp hj)
    · rw [List.map_singleton, List.map_singleton, foldl_rowStores_self]

/-- **What the page shows**: of every row the first four values, up to their first `'\0'`. -/
theorem rows_page (t : Table) (h : t.rows.length ≤ 1024) :
    (page (showTable t)).rows = t.rows.map fun r => (r.fields.take ROW).map cstr := by
  have hline : longToInt t.rows.length = t.rows.length :=
    longToInt_of_range (by unfold intMin; omega) (by unfold intMax; omega)
  rw [← cells_outStores, page, showTable]
  simp only [hline, Int.toNat_natCast, List.take_length]

/-- What is inserted as data comes back without its last value. -/
theorem rows_page_inserts (columns : Row) {calls : List Row} (h : ∀ r ∈ calls, CarriesData r)
    (hlen : calls.length ≤ 1024) :
    (page (showTable (inserts ⟨columns, []⟩ calls))).rows =
      calls.map fun r => (r.fields.take ROW).map cstr := by
  rw [inserts_of_carriesData h]
  exact rows_page ⟨columns, calls⟩ hlen

/-! ### The constant -/

/-- The name of the fifth column is stored behind `name`. -/
theorem not_inRange (t : Table) : ¬ (showTable t).InRange := by
  intro ⟨hname, _⟩
  have hlt : 4 < ROW := hname (4, cstr t.columns.workTime) (by simp [showTable, Row.fields])
  exact absurd hlt (by decide)

theorem length_of_mem_rows {s : Shown} {cells : List Bytes} (h : cells ∈ (page s).rows) :
    cells.length = ROW := by
  simp only [page] at h
  obtain ⟨i, -, rfl⟩ := List.mem_map.mp h
  rw [List.length_map, List.length_range]

/-- **No sequence of calls comes back**: an index is out of range whatever was inserted, and
no row is shown with all its fields. -/
theorem not_comesBack (columns : Row) (calls : List Row) :
    ¬ ComesBack columns calls ∧
      ∀ r ∈ calls, r.fields ∉ (page (showTable (inserts ⟨columns, []⟩ calls))).rows := by
  refine ⟨fun h => not_inRange _ h.2.1, ?_⟩
  intro r _ hmem
  have hfive : r.fields.length = 5 := rfl
  rw [length_of_mem_rows hmem] at hfive
  exact absurd hfive (by decide)

/-- The row that the program in `mysql.cpp` inserts loses its total time. -/
theorem not_comesBack_one_row :
    ¬ ComesBack ⟨bytes "Name", bytes "Sub_number", bytes "Begin", bytes "End", bytes "total_time"⟩
        [⟨bytes "abcd", bytes "123456", bytes "12:23:45", bytes "12:34:67", bytes "23"⟩] ∧
      (page (showTable (inserts
          ⟨⟨bytes "Name", bytes "Sub_number", bytes "Begin", bytes "End", bytes "total_time"⟩, []⟩
          [⟨bytes "abcd", bytes "123456", bytes "12:23:45", bytes "12:34:67", bytes "23"⟩]))).rows =
        [[bytes "abcd", bytes "123456", bytes "12:23:45", bytes "12:34:67"]] :=
  ⟨fun h => not_inRange _ h.2.1, by decide +kernel⟩

end FacePerception.Mysql
