import FacePerception.Lib.Markup
import FacePerception.Mysql.Table

/-!
# The text of the table page

The HTML that `main` of `cgi_bin/data_base_show.cpp` prints around the cells of a `Page`
(lines 18–47). The row of the headings is closed by a second `</th>` (line 35), where the
other rows have `</tr>` (line 43), and the cells are printed as they are.

Results:
* `readsBack_iff`: when the cells can be read back.
* `not_faithful`: the tags of a page that can be read back are not nested.
-/

namespace FacePerception.Mysql

open CString Markup

/-- `cout<<s<<endl`. -/
def line (s : Bytes) : Bytes := s ++ [LF]

/-- Lines 33–34. -/
def headerText (header : List Bytes) : Bytes :=
  header.flatMap fun cell => line (bytes "<th>" ++ cell ++ bytes "</th>")

/-- Lines 38–43. -/
def rowText (row : List Bytes) : Bytes :=
  line (bytes "<tr>") ++ row.flatMap (fun cell => line (bytes "<td>" ++ cell ++ bytes "</td>")) ++
    line (bytes "</tr>")

/-- What is printed (lines 18–47). -/
def pageText (p : Page) : Bytes :=
  line (bytes "<html>") ++ line (bytes "<head>") ++
    line (bytes "<p> wecome to linux data base show world </p>") ++ line (bytes "</head>") ++
    line (bytes "<body>") ++ line (bytes "<table border=\"1\">") ++ line (bytes "<tr>") ++
    headerText p.header ++ line (bytes "</th>") ++ p.rows.flatMap rowText ++
    line (bytes "</table>") ++ line (bytes "</body>") ++ line (bytes "</html>")

/-! ## Reading it back -/

/-- The headings and the rows of a document with one table. -/
structure Gives (items : List Item) (p : Page) : Prop where
  header : texts (bytes "th") items = p.header
  rows : (contents (bytes "tr") items).tail.map (texts (bytes "td")) = p.rows

/-- The page is a document from which its cells can be read. -/
def ReadsBack (p : Page) : Prop := ∃ items, lex (pageText p) = some items ∧ Gives items p

/-- And its tags are nested. -/
def Faithful (p : Page) : Prop :=
  ∃ items, lex (pageText p) = some items ∧ Nested items ∧ Gives items p

/-- No cell has a `'<'`. -/
structure PlainCells (p : Page) : Prop where
  header : ∀ cell ∈ p.header, ch '<' ∉ cell
  rows : ∀ row ∈ p.rows, ∀ cell ∈ row, ch '<' ∉ cell

/-! ## The page in pieces -/

def cellPieces (name cell : Bytes) : List Piece := [⟨name, cell⟩, ⟨ch '/' :: name, [LF]⟩]

def rowPieces (row : List Bytes) : List Piece :=
  ⟨bytes "tr", [LF]⟩ :: (row.flatMap (cellPieces (bytes "td")) ++ [⟨bytes "/tr", [LF]⟩])

def headPieces : List Piece :=
  [⟨bytes "html", [LF]⟩, ⟨bytes "head", [LF]⟩,
    ⟨bytes "p", bytes " wecome to linux data base show world "⟩, ⟨bytes "/p", [LF]⟩,
    ⟨bytes "/head", [LF]⟩, ⟨bytes "body", [LF]⟩, ⟨bytes "table border=\"1\"", [LF]⟩,
    ⟨bytes "tr", [LF]⟩]

def endPieces : List Piece :=
  [⟨bytes "/table", [LF]⟩, ⟨bytes "/body", [LF]⟩, ⟨bytes "/html", [LF]⟩]

def pagePieces (p : Page) : List Piece :=
  headPieces ++ (p.header.flatMap (cellPieces (bytes "th")) ++ (⟨bytes "/th", [LF]⟩ ::
    (p.rows.flatMap rowPieces ++ endPieces)))

theorem render_th (cell : Bytes) : render (cellPieces (bytes "th") cell) =
    line (bytes "<th>" ++ cell ++ bytes "</th>") := by
  rw [line, List.append_assoc, List.append_assoc]
  rfl

theorem render_td (cell : Bytes) : render (cellPieces (bytes "td") cell) =
    line (bytes "<td>" ++ cell ++ bytes "</td>") := by
  rw [line, List.append_assoc, List.append_assoc]
  rfl

theorem render_header (header : List Bytes) :
    render (header.flatMap (cellPieces (bytes "th"))) = headerText header := by
  simp only [render_flatMap, render_th, headerText]

theorem render_row (row : List Bytes) : render (rowPieces row) = rowText row := by
  have hopen : Piece.render ⟨bytes "tr", [LF]⟩ = line (bytes "<tr>") := by decide
  have hclose : render [⟨bytes "/tr", [LF]⟩] = line (bytes "</tr>") := by decide
  rw [rowPieces, render_cons, render_append, render_flatMap, hopen, hclose, rowText,
    List.append_assoc]
  simp only [render_td]

/-- What is printed is made of these pieces. -/
theorem render_page (p : Page) : render (pagePieces p) = pageText p := by
  have hhead : render headPieces = line (bytes "<html>") ++ line (bytes "<head>") ++
      line (bytes "<p> wecome to linux data base show world </p>") ++ line (bytes "</head>") ++
      line (bytes "<body>") ++ line (bytes "<table border=\"1\">") ++ line (bytes "<tr>") := by
    decide
  have hclose : Piece.render ⟨bytes "/th", [LF]⟩ = line (bytes "</th>") := by decide
  have hend : render endPieces =
      line (bytes "</table>") ++ line (bytes "</body>") ++ line (bytes "</html>") := by decide
  rw [pagePieces, render_append, render_append, render_cons, render_append, render_header,
    render_flatMap, hhead, hclose, hend, pageText]
  simp only [render_row, List.append_assoc]

theorem plain_cellPieces {name cell : Bytes} (hname : ch '>' ∉ name) (hcell : ch '<' ∉ cell) :
    ∀ q ∈ cellPieces name cell, q.Plain := by
  intro q hq
  rcases List.mem_cons.mp hq with rfl | hq
  · exact ⟨hname, hcell⟩
  · rw [List.mem_singleton.mp hq]
    have htext : ch '<' ∉ [LF] := by decide
    refine ⟨?_, htext⟩
    rw [List.mem_cons, not_or]
    exact ⟨by decide, hname⟩

theorem plain_cells {name : Bytes} {cells : List Bytes} (hname : ch '>' ∉ name)
    (hcells : ∀ cell ∈ cells, ch '<' ∉ cell) :
    ∀ q ∈ cells.flatMap (cellPieces name), q.Plain := by
  intro q hq
  obtain ⟨cell, hcell, hq⟩ := List.mem_flatMap.mp hq
  exact plain_cellPieces hname (hcells cell hcell) q hq

theorem plain_of_all {ps : List Piece}
    (h : ps.all fun q => ch '>' ∉ q.inside ∧ ch '<' ∉ q.text) : ∀ q ∈ ps, q.Plain := by
  intro q hq
  have hplain := of_decide_eq_true (List.all_eq_true.mp h q hq)
  exact ⟨hplain.1, hplain.2⟩

theorem plain_row {row : List Bytes} (h : ∀ cell ∈ row, ch '<' ∉ cell) :
    ∀ q ∈ rowPieces row, q.Plain := by
  rw [rowPieces, List.forall_mem_cons, List.forall_mem_append]
  exact ⟨⟨by decide, by decide⟩, plain_cells (by decide) h, plain_of_all (by decide)⟩

theorem plain_page {p : Page} (h : PlainCells p) : ∀ q ∈ pagePieces p, q.Plain := by
  rw [pagePieces, List.forall_mem_append, List.forall_mem_append, List.forall_mem_cons,
    List.forall_mem_append]
  refine ⟨plain_of_all (by decide), plain_cells (by decide) h.header, ⟨by decide, by decide⟩, ?_,
    plain_of_all (by decide)⟩
  intro q hq
  obtain ⟨row, hrow, hq⟩ := List.mem_flatMap.mp hq
  exact plain_row (h.rows row hrow) q hq

/-! ## The items of the page -/

def cellItems (name : Bytes) (cells : List Bytes) : List Item :=
  cells.flatMap fun cell => [(.opened name, cell), (.closed name, [LF])]

def rowItems (row : List Bytes) : List Item :=
  (.opened (bytes "tr"), [LF]) ::
    (cellItems (bytes "td") row ++ [(.closed (bytes "tr"), [LF])])

def pageItems (p : Page) : List Item :=
  headPieces.map Piece.item ++ (cellItems (bytes "th") p.header ++
    ((.closed (bytes "th"), [LF]) :: (p.rows.flatMap rowItems ++ endPieces.map Piece.item)))

theorem map_item_cells {name : Bytes} (hname : tagOf name = .opened name) (cells : List Bytes) :
    (cells.flatMap (cellPieces name)).map Piece.item = cellItems name cells := by
  have hclosed : tagOf (ch '/' :: name) = .closed name := if_pos rfl
  rw [List.map_flatMap, cellItems]
  congr 1
  funext cell
  simp [cellPieces, Piece.item, hname, hclosed]

theorem map_item_row (row : List Bytes) : (rowPieces row).map Piece.item = rowItems row := by
  have hopen : Piece.item ⟨bytes "tr", [LF]⟩ = (.opened (bytes "tr"), [LF]) := by decide
  have hclose : [Piece.mk (bytes "/tr") [LF]].map Piece.item = [(.closed (bytes "tr"), [LF])] := by
    decide
  rw [rowPieces, List.map_cons, List.map_append, map_item_cells (by decide), hopen, hclose,
    rowItems]

theorem lex_pageText {p : Page} (h : PlainCells p) : lex (pageText p) = some (pageItems p) := by
  have hclose : Piece.item ⟨bytes "/th", [LF]⟩ = (.closed (bytes "th"), [LF]) := by decide
  rw [← render_page, lex_render (plain_page h), pagePieces, List.map_append, List.map_append,
    List.map_cons, List.map_append, map_item_cells (by decide), hclose, List.map_flatMap]
  simp only [map_item_row, pageItems]

/-- Cells leave the elements open that were open before. -/
theorem walk_cellItems (name : Bytes) (stack cells : List Bytes) :
    walk stack (cellItems name cells) = some stack := by
  induction cells with
  | nil => rfl
  | cons cell cells ih =>
    rw [cellItems, List.flatMap_cons, ← cellItems, walk_append, walk, walk, if_pos rfl, walk]
    exact ih

/-- **The tags are not nested**: a `</th>` comes where the row of the headings is open. -/
theorem not_nested_pageItems (p : Page) : ¬ Nested (pageItems p) := by
  have hhead : walk [] (headPieces.map Piece.item) =
      some [bytes "tr", bytes "table", bytes "body", bytes "html"] := by decide
  have hne : bytes "tr" ≠ bytes "th" := by decide
  rw [Nested, pageItems, walk_append, hhead, Option.bind_some, walk_append, walk_cellItems,
    Option.bind_some, walk, if_neg hne]
  simp

/-! ## What is read -/

theorem cellItems_fst {name : Bytes} {cells : List Bytes} :
    ∀ i ∈ cellItems name cells, i.1 = .opened name ∨ i.1 = .closed name := by
  intro i hi
  obtain ⟨cell, -, hi⟩ := List.mem_flatMap.mp hi
  rcases List.mem_cons.mp hi with rfl | hi
  · exact Or.inl rfl
  · rw [List.mem_singleton.mp hi]
    exact Or.inr rfl

/-- Cells have no tags of another name. -/
theorem cellItems_ne {name name' : Bytes} (hne : name ≠ name') {cells : List Bytes} :
    ∀ i ∈ cellItems name cells, i.1 ≠ .opened name' ∧ i.1 ≠ .closed name' := by
  intro i hi
  rcases cellItems_fst i hi with h | h
  · rw [h]
    exact ⟨by simpa using hne, by simp⟩
  · rw [h]
    exact ⟨by simp, by simpa using hne⟩

theorem texts_cellItems (name : Bytes) (cells : List Bytes) :
    texts name (cellItems name cells) = cells := by
  induction cells with
  | nil => rfl
  | cons cell cells ih =>
    rw [cellItems, List.flatMap_cons, ← cellItems, texts_append, ih]
    simp [texts]

theorem rowItems_ne_th (row : List Bytes) :
    ∀ i ∈ rowItems row, i.1 ≠ .opened (bytes "th") := by
  have hne : bytes "td" ≠ bytes "th" := by decide
  rw [rowItems, List.forall_mem_cons, List.forall_mem_append]
  exact ⟨by decide, fun i hi => (cellItems_ne hne i hi).1, by decide⟩

theorem contents_rows (rows : List (List Bytes)) (items : List Item) :
    contents (bytes "tr") (rows.flatMap rowItems ++ items) =
      rows.map (cellItems (bytes "td")) ++ contents (bytes "tr") items := by
  have hne : bytes "td" ≠ bytes "tr" := by decide
  induction rows with
  | nil => rfl
  | cons row rows ih =>
    have hrow : (row :: rows).flatMap rowItems ++ items =
        (.opened (bytes "tr"), [LF]) :: (cellItems (bytes "td") row ++
          (.closed (bytes "tr"), [LF]) :: (rows.flatMap rowItems ++ items)) := by
      simp [rowItems]
    rw [hrow, contents_element (cellItems_ne hne), ih, List.map_cons, List.cons_append]

theorem header_pageItems (p : Page) : texts (bytes "th") (pageItems p) = p.header := by
  have hhead : texts (bytes "th") (headPieces.map Piece.item) = [] := by decide
  have hrest : texts (bytes "th") ((.closed (bytes "th"), [LF]) ::
      (p.rows.flatMap rowItems ++ endPieces.map Piece.item)) = [] := by
    apply texts_eq_nil
    rw [List.forall_mem_cons, List.forall_mem_append]
    refine ⟨by decide, ?_, by decide⟩
    intro i hi
    obtain ⟨row, -, hi⟩ := List.mem_flatMap.mp hi
    exact rowItems_ne_th row i hi
  rw [pageItems, texts_append, texts_append, hhead, hrest, texts_cellItems, List.nil_append,
    List.append_nil]

/-- The first `tr` is the row of the headings. -/
theorem contents_pageItems (p : Page) : (contents (bytes "tr") (pageItems p)).tail =
    p.rows.map (cellItems (bytes "td")) := by
  have hne : bytes "th" ≠ bytes "tr" := by decide
  have hhead : headPieces.map Piece.item =
      (headPieces.map Piece.item).dropLast ++ [(.opened (bytes "tr"), [LF])] := by decide
  have hbefore : ∀ i ∈ (headPieces.map Piece.item).dropLast, i.1 ≠ .opened (bytes "tr") := by
    decide
  have hclose : Tag.closed (bytes "th") ≠ .opened (bytes "tr") := by decide
  have hend : contents (bytes "tr") (endPieces.map Piece.item) = [] := by decide
  rw [pageItems, hhead, List.append_assoc, contents_append hbefore, List.singleton_append,
    contents, if_pos rfl, List.tail_cons, contents_append fun i hi => (cellItems_ne hne i hi).1,
    contents, if_neg hclose, contents_rows, hend, List.append_nil]

theorem gives_pageItems (p : Page) : Gives (pageItems p) p := by
  refine ⟨header_pageItems p, ?_⟩
  rw [contents_pageItems, List.map_map]
  have hid : texts (bytes "td") ∘ cellItems (bytes "td") = id :=
    funext fun cells => texts_cellItems (bytes "td") cells
  rw [hid, List.map_id]

/-- What can be read has no `'<'`. -/
theorem plainCells_of_gives {p : Page} {items : List Item} (h : lex (pageText p) = some items)
    (hgives : Gives items p) : PlainCells p := by
  have hplain := notMem_of_lex h
  constructor
  · intro cell hcell
    rw [← hgives.header] at hcell
    obtain ⟨i, hi, rfl⟩ := mem_of_mem_texts hcell
    exact hplain i hi
  · intro row hrow cell hcell
    rw [← hgives.rows] at hrow
    obtain ⟨content, hcontent, rfl⟩ := List.mem_map.mp hrow
    obtain ⟨i, hi, rfl⟩ := mem_of_mem_texts hcell
    exact hplain i (mem_of_mem_contents (List.mem_of_mem_tail hcontent) hi)

/-- **The cells can be read back iff** none of them has a `'<'`. -/
theorem readsBack_iff (p : Page) : ReadsBack p ↔ PlainCells p := by
  constructor
  · intro ⟨items, hlex, hgives⟩
    exact plainCells_of_gives hlex hgives
  · intro h
    exact ⟨pageItems p, lex_pageText h, gives_pageItems p⟩

/-- Where the cells can be read back, the tags are not nested. -/
theorem not_nested_of_gives {p : Page} {items : List Item} (h : lex (pageText p) = some items)
    (hgives : Gives items p) : ¬ Nested items := by
  have hpage := lex_pageText (plainCells_of_gives h hgives)
  obtain rfl := Option.some.inj (h.symm.trans hpage)
  exact not_nested_pageItems p

/-- **No page is faithful.** -/
theorem not_faithful (p : Page) : ¬ Faithful p := by
  rintro ⟨items, hlex, hnested, hgives⟩
  exact not_nested_of_gives hlex hgives hnested

/-- The page of a table with one row, and that of a table with a tag in a cell. -/
theorem not_faithful_one_row :
    ¬ Faithful ⟨[bytes "Name", bytes "Number", bytes "Begin", bytes "End"],
        [[bytes "ann", bytes "7", bytes "9:00", bytes "17:00"]]⟩ ∧
      ¬ ReadsBack ⟨[bytes "Name", bytes "Number", bytes "Begin", bytes "End"],
        [[bytes "<b>", bytes "7", bytes "9:00", bytes "17:00"]]⟩ := by
  constructor
  · rintro ⟨items, hlex, hnested, hgives⟩
    exact not_nested_of_gives hlex hgives hnested
  · rintro ⟨items, hlex, hgives⟩
    have hplain := (plainCells_of_gives hlex hgives).rows _ List.mem_cons_self _ List.mem_cons_self
    exact absurd hplain (by decide)

end FacePerception.Mysql
