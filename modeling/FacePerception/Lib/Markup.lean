import FacePerception.Lib.CString

/-!
# Markup

A document is text with tags in it. A tag goes from a `'<'` to the next `'>'`; `</name>`
closes the element `name` and anything else opens one, whose name ends at the first space.
There are no references: text stands for itself.

* `lex_render`: what is put together of tags and text is taken apart again, if no text has
  a `'<'` and no tag a `'>'`.
* `notMem_of_lex`: no text of a document has a `'<'`.
* `walk_append`: nesting is followed piece by piece.
-/

namespace Markup

open CString

/-! ## Documents -/

inductive Tag
  | opened (name : Bytes)
  | closed (name : Bytes)
deriving DecidableEq

/-- A tag and the text behind it. -/
abbrev Item : Type := Tag × Bytes

/-- The tag with this between its brackets. -/
def tagOf (inside : Bytes) : Tag :=
  if deref inside = ch '/' then .closed inside.tail else .opened (inside.takeWhile (· ≠ ch ' '))

/-- What is inside the brackets of a tag, and the text behind it, as they are written. -/
structure Piece where
  inside : Bytes
  text : Bytes

def Piece.item (p : Piece) : Item := (tagOf p.inside, p.text)

def Piece.render (p : Piece) : Bytes := ch '<' :: (p.inside ++ ch '>' :: p.text)

def render (ps : List Piece) : Bytes := ps.flatMap Piece.render

/-- A piece that can be recognised. -/
structure Piece.Plain (p : Piece) : Prop where
  inside : ch '>' ∉ p.inside
  text : ch '<' ∉ p.text

/-- Where the lexer is: in text or in a tag, with what it has seen of it. -/
inductive Mode
  | text (seen : Bytes)
  | tag (seen : Bytes)

/-- The text before the first tag, and the items; `none` where a tag does not end. -/
def lexFrom : Mode → Bytes → Option (Bytes × List Item)
  | .text seen, [] => some (seen, [])
  | .tag _, [] => none
  | .text seen, c :: s =>
    if c = ch '<' then (lexFrom (.tag []) s).map fun r => (seen, r.2)
    else lexFrom (.text (seen ++ [c])) s
  | .tag seen, c :: s =>
    if c = ch '>' then (lexFrom (.text []) s).map fun r => ([], (tagOf seen, r.1) :: r.2)
    else lexFrom (.tag (seen ++ [c])) s

/-- The items of a document that begins with a tag, or with text that does not matter. -/
def lex (s : Bytes) : Option (List Item) := (lexFrom (.text []) s).map (·.2)

example : lex (bytes "<a b>x</a>") =
    some [(.opened (bytes "a"), bytes "x"), (.closed (bytes "a"), [])] := by decide

/-! ## Nesting and content -/

/-- The elements that are open behind these items; `none` where a tag closes another
element than the innermost. -/
def walk : List Bytes → List Item → Option (List Bytes)
  | stack, [] => some stack
  | stack, (.opened name, _) :: items => walk (name :: stack) items
  | [], (.closed _, _) :: _ => none
  | top :: stack, (.closed name, _) :: items => if top = name then walk stack items else none

/-- Every tag is matched. -/
def Nested (items : List Item) : Prop := walk [] items = some []

/-- The text at the start of each element `name`. -/
def texts (name : Bytes) (items : List Item) : List Bytes :=
  items.filterMap fun i => if i.1 = .opened name then some i.2 else none

/-- What is inside each element `name`, as far as the next tag that closes such an
element. -/
def contents (name : Bytes) : List Item → List (List Item)
  | [] => []
  | i :: items =>
    if i.1 = .opened name then items.takeWhile (·.1 ≠ .closed name) :: contents name items
    else contents name items

theorem walk_append (stack : List Bytes) (items items' : List Item) :
    walk stack (items ++ items') = (walk stack items).bind (walk · items') := by
  fun_induction walk stack items with
  | case1 stack => rfl
  | case2 stack name text items ih => exact ih
  | case3 name text items => rfl
  | case4 stack name text items ih =>
    rw [List.cons_append, walk, if_pos rfl]
    exact ih
  | case5 top stack name text items h =>
    rw [List.cons_append, walk, if_neg h]
    rfl

theorem texts_append (name : Bytes) (items items' : List Item) :
    texts name (items ++ items') = texts name items ++ texts name items' :=
  List.filterMap_append

theorem render_cons (p : Piece) (ps : List Piece) : render (p :: ps) = p.render ++ render ps :=
  List.flatMap_cons

theorem render_append (ps ps' : List Piece) : render (ps ++ ps') = render ps ++ render ps' :=
  List.flatMap_append

theorem render_flatMap {α : Type} (l : List α) (f : α → List Piece) :
    render (l.flatMap f) = l.flatMap fun x => render (f x) :=
  List.flatMap_assoc

/-! ## Lexing -/

theorem lexFrom_text {text : Bytes} (h : ch '<' ∉ text) (seen s : Bytes) :
    lexFrom (.text seen) (text ++ s) = lexFrom (.text (seen ++ text)) s := by
  induction text generalizing seen with
  | nil => rw [List.nil_append, List.append_nil]
  | cons c text ih =>
    obtain ⟨hc, htext⟩ := not_or.mp (List.mem_cons.not.mp h)
    rw [List.cons_append, lexFrom, if_neg (Ne.symm hc), ih htext, List.append_assoc,
      List.singleton_append]

theorem lexFrom_tag {inside : Bytes} (h : ch '>' ∉ inside) (seen s : Bytes) :
    lexFrom (.tag seen) (inside ++ ch '>' :: s) =
      (lexFrom (.text []) s).map fun r => ([], (tagOf (seen ++ inside), r.1) :: r.2) := by
  induction inside generalizing seen with
  | nil => rw [List.nil_append, lexFrom, if_pos rfl, List.append_nil]
  | cons c inside ih =>
    obtain ⟨hc, hinside⟩ := not_or.mp (List.mem_cons.not.mp h)
    rw [List.cons_append, lexFrom, if_neg (Ne.symm hc), ih hinside, List.append_assoc,
      List.singleton_append]

theorem lexFrom_render {ps : List Piece} (h : ∀ p ∈ ps, p.Plain) (seen : Bytes) :
    lexFrom (.text seen) (render ps) = some (seen, ps.map Piece.item) := by
  induction ps generalizing seen with
  | nil => rfl
  | cons p ps ih =>
    obtain ⟨hp, hps⟩ := List.forall_mem_cons.mp h
    have hrender : render (p :: ps) = ch '<' :: (p.inside ++ ch '>' :: (p.text ++ render ps)) := by
      rw [render_cons, Piece.render, List.cons_append, List.append_assoc, List.cons_append]
    rw [hrender, lexFrom, if_pos rfl, lexFrom_tag hp.inside, lexFrom_text hp.text, ih hps]
    rfl

/-- **What is put together of plain pieces is taken apart again.** -/
theorem lex_render {ps : List Piece} (h : ∀ p ∈ ps, p.Plain) :
    lex (render ps) = some (ps.map Piece.item) := by
  rw [lex, lexFrom_render h]
  rfl

/-- No `'<'` is in the text seen so far. -/
def Mode.Clean : Mode → Prop
  | .text seen => ch '<' ∉ seen
  | .tag _ => True

theorem notMem_of_lexFrom (s : Bytes) : ∀ (mode : Mode) {first : Bytes} {items : List Item},
    mode.Clean → lexFrom mode s = some (first, items) →
      ch '<' ∉ first ∧ ∀ i ∈ items, ch '<' ∉ i.2 := by
  induction s with
  | nil =>
    intro mode first items hclean h
    cases mode with
    | text seen =>
      obtain ⟨rfl, rfl⟩ := Prod.mk.inj (Option.some.inj h)
      exact ⟨hclean, by simp⟩
    | tag seen => exact absurd h (by simp [lexFrom])
  | cons c s ih =>
    intro mode first items hclean h
    cases mode with
    | text seen =>
      rw [lexFrom] at h
      split_ifs at h with hc
      · obtain ⟨⟨first', items'⟩, hrest, heq⟩ := Option.map_eq_some_iff.mp h
        obtain ⟨rfl, rfl⟩ := Prod.mk.inj heq
        exact ⟨hclean, (ih (.tag []) trivial hrest).2⟩
      · refine ih (.text (seen ++ [c])) ?_ h
        show ch '<' ∉ seen ++ [c]
        rw [List.mem_append, List.mem_singleton, not_or]
        exact ⟨hclean, Ne.symm hc⟩
    | tag seen =>
      rw [lexFrom] at h
      split_ifs at h with hc
      · obtain ⟨⟨first', items'⟩, hrest, heq⟩ := Option.map_eq_some_iff.mp h
        obtain ⟨rfl, rfl⟩ := Prod.mk.inj heq
        obtain ⟨hfirst, hitems⟩ := ih (.text []) List.not_mem_nil hrest
        exact ⟨List.not_mem_nil, List.forall_mem_cons.mpr ⟨hfirst, hitems⟩⟩
      · exact ih (.tag (seen ++ [c])) trivial h

/-- **No text of a document has a `'<'`.** -/
theorem notMem_of_lex {s : Bytes} {items : List Item} (h : lex s = some items) :
    ∀ i ∈ items, ch '<' ∉ i.2 := by
  obtain ⟨⟨first, items'⟩, hlex, rfl⟩ := Option.map_eq_some_iff.mp h
  exact (notMem_of_lexFrom s (.text []) List.not_mem_nil hlex).2

/-! ## Content -/

theorem texts_eq_nil {name : Bytes} {items : List Item} (h : ∀ i ∈ items, i.1 ≠ .opened name) :
    texts name items = [] :=
  List.filterMap_eq_nil_iff.mpr fun i hi => if_neg (h i hi)

theorem contents_append {name : Bytes} {items : List Item} (h : ∀ i ∈ items, i.1 ≠ .opened name)
    (items' : List Item) : contents name (items ++ items') = contents name items' := by
  induction items with
  | nil => rfl
  | cons i items ih =>
    obtain ⟨hi, hitems⟩ := List.forall_mem_cons.mp h
    rw [List.cons_append, contents, if_neg hi, ih hitems]

/-- An element whose content has no tag of the same name. -/
theorem contents_element {name : Bytes} {content : List Item}
    (h : ∀ i ∈ content, i.1 ≠ .opened name ∧ i.1 ≠ .closed name) (text text' : Bytes)
    (items : List Item) :
    contents name ((.opened name, text) :: (content ++ (.closed name, text') :: items)) =
      content :: contents name items := by
  have hopen : Tag.closed name ≠ .opened name := by simp
  rw [contents, if_pos rfl, List.takeWhile_append_of_pos (fun i hi => by simpa using (h i hi).2),
    List.takeWhile_cons_of_neg (by simp), List.append_nil,
    contents_append fun i hi => (h i hi).1, contents, if_neg hopen]

theorem mem_of_mem_texts {name text : Bytes} {items : List Item} (h : text ∈ texts name items) :
    ∃ i ∈ items, i.2 = text := by
  obtain ⟨i, hi, hsome⟩ := List.mem_filterMap.mp h
  split_ifs at hsome
  exact ⟨i, hi, Option.some.inj hsome⟩

theorem mem_of_mem_contents {name : Bytes} {content items : List Item} {i : Item}
    (h : content ∈ contents name items) (hi : i ∈ content) : i ∈ items := by
  induction items with
  | nil => exact absurd h List.not_mem_nil
  | cons j items ih =>
    rw [contents] at h
    split_ifs at h
    · rcases List.mem_cons.mp h with rfl | h
      · exact List.mem_cons_of_mem j ((List.takeWhile_prefix _).subset hi)
      · exact List.mem_cons_of_mem j (ih h)
    · exact List.mem_cons_of_mem j (ih h)

end Markup
