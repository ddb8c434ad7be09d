import Mathlib.Data.List.Basic

/-!
# Tables as text

The rows of a table, one in a line: `sep` stands between the fields of a row, and `stop`
behind every row.

* `lines_append`, `fields_line`: the first line of a text, and the fields of a line.
* `plain_of_mem_parse`: neither `sep` nor `stop` is in a field that was read.
* `parse_render_iff`: a table can be read back iff neither is in a field of it.
-/

namespace TextTable

variable {α : Type} {sep stop : α}

/-- The line of a row. -/
def line (sep : α) (row : List (List α)) : List α := [sep].intercalate row

/-- The text of a table. -/
def render (sep stop : α) (rows : List (List (List α))) : List α :=
  rows.flatMap fun row => line sep row ++ [stop]

/-- `a` is in no field of the table. -/
def NotIn (a : α) (rows : List (List (List α))) : Prop := ∀ row ∈ rows, ∀ f ∈ row, a ∉ f

theorem notMem_line {a : α} (hne : a ≠ sep) {row : List (List α)} (h : ∀ f ∈ row, a ∉ f) :
    a ∉ line sep row := by
  induction row with
  | nil => simp [line, List.intercalate]
  | cons f row ih =>
    obtain ⟨hf, hrow⟩ := List.forall_mem_cons.mp h
    cases row with
    | nil => simpa [line, List.intercalate] using hf
    | cons g row =>
      rw [line, List.intercalate_cons_of_ne_nil (List.cons_ne_nil _ _)]
      have htail := ih hrow
      rw [line] at htail
      simp [hf, hne, htail]

section Parse

variable [DecidableEq α]

/-- The lines of a text. What is behind the last `stop` is no line. -/
def lines (stop : α) (text : List α) : List (List α) := (text.splitOn stop).dropLast

/-- The table that a text shows. -/
def parse (sep stop : α) (text : List α) : List (List (List α)) :=
  (lines stop text).map fun l => l.splitOn sep

/-- What is in a piece of a split. -/
theorem of_mem_splitOn {a c : α} {l piece : List α} (h : piece ∈ l.splitOn a) (hc : c ∈ piece) :
    c ≠ a ∧ c ∈ l := by
  induction l generalizing piece with
  | nil =>
    rw [List.splitOn_nil, List.mem_singleton] at h
    rw [h] at hc
    cases hc
  | cons d l ih =>
    rw [List.splitOn_cons_eq_if_modifyHead] at h
    obtain ⟨head, pieces, hpieces⟩ := List.exists_cons_of_ne_nil (List.splitOn_ne_nil a l)
    rw [hpieces] at ih h
    split_ifs at h with hd
    · rcases List.mem_cons.mp h with rfl | h
      · cases hc
      · exact (ih h hc).imp_right (List.mem_cons_of_mem d)
    · rw [List.modifyHead_cons] at h
      rcases List.mem_cons.mp h with rfl | h
      · -- the first piece has got `d` in front
        rcases List.mem_cons.mp hc with rfl | hc
        · exact ⟨by simpa using hd, List.mem_cons_self⟩
        · exact (ih List.mem_cons_self hc).imp_right (List.mem_cons_of_mem d)
      · exact (ih (List.mem_cons_of_mem _ h) hc).imp_right (List.mem_cons_of_mem d)

theorem lines_append {w : List α} (hw : stop ∉ w) (text : List α) :
    lines stop (w ++ stop :: text) = w :: lines stop text := by
  rw [lines, List.splitOn_append_cons_self_of_not_mem hw,
    List.dropLast_cons_of_ne_nil (List.splitOn_ne_nil _ _), lines]

theorem lines_render {rows : List (List (List α))} (hne : stop ≠ sep) (h : NotIn stop rows) :
    lines stop (render sep stop rows) = rows.map (line sep) := by
  induction rows with
  | nil => rfl
  | cons row rows ih =>
    obtain ⟨hrow, hrows⟩ := List.forall_mem_cons.mp h
    have htext : render sep stop (row :: rows) =
        line sep row ++ stop :: render sep stop rows := by
      simp [render]
    rw [htext, lines_append (notMem_line hne hrow), ih hrows, List.map_cons]

/-- The fields of a line. -/
theorem fields_line {row : List (List α)} (hne : row ≠ []) (h : ∀ f ∈ row, sep ∉ f) :
    (line sep row).splitOn sep = row :=
  List.splitOn_intercalate sep h hne

theorem plain_of_mem_parse {text : List α} {row : List (List α)} (hrow : row ∈ parse sep stop text)
    {f : List α} (hf : f ∈ row) : sep ∉ f ∧ stop ∉ f := by
  obtain ⟨l, hl, rfl⟩ := List.mem_map.mp hrow
  have hl : l ∈ text.splitOn stop := List.dropLast_subset _ hl
  exact ⟨fun hmem => (of_mem_splitOn hf hmem).1 rfl,
    fun hmem => (of_mem_splitOn hl (of_mem_splitOn hf hmem).2).1 rfl⟩

/-- **A table can be read back** iff what delimits its fields is in none of them. -/
theorem parse_render_iff (hne : stop ≠ sep) {rows : List (List (List α))}
    (hrows : ∀ row ∈ rows, row ≠ []) :
    parse sep stop (render sep stop rows) = rows ↔ NotIn sep rows ∧ NotIn stop rows := by
  constructor
  · intro h
    have hplain : ∀ row ∈ rows, ∀ f ∈ row, sep ∉ f ∧ stop ∉ f := by
      intro row hrow f hf
      rw [← h] at hrow
      exact plain_of_mem_parse hrow hf
    exact ⟨fun row hrow f hf => (hplain row hrow f hf).1, fun row hrow f hf =>
      (hplain row hrow f hf).2⟩
  · intro h
    rw [parse, lines_render hne h.2, List.map_map]
    refine (List.map_congr_left fun row hrow => ?_).trans (List.map_id _)
    exact fields_line (hrows row hrow) (h.1 row hrow)

end Parse

end TextTable
