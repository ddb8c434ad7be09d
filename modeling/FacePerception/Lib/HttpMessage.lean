import FacePerception.Lib.CString

/-!
# HTTP messages

The shape of a message: a start line, header lines, each ended by CRLF, up to the
first empty line, and the body.

* `Message.unique`: a string of bytes is a message in at most one way.
-/

namespace HttpMessage

open CString

/-- The first line of `bs`, without its CRLF, and what follows it. -/
def crlfLine : Bytes → Option (Bytes × Bytes)
  | [] => none
  | [_] => none
  | c :: d :: bs =>
    if c = CR ∧ d = LF then some ([], bs)
    else (crlfLine (d :: bs)).map fun r => (c :: r.1, r.2)

/-- `bs` begins with the header lines `fields` and the empty line; `body` is the rest. -/
inductive Fields : Bytes → List Bytes → Bytes → Prop
  | empty {bs body : Bytes} (hline : crlfLine bs = some ([], body)) : Fields bs [] body
  | field {bs field bs' body : Bytes} {fields : List Bytes}
    (hline : crlfLine bs = some (field, bs')) (hne : field ≠ []) (htail : Fields bs' fields body) :
    Fields bs (field :: fields) body

/-- `bs` is a message with the start line `start`. -/
def Message (bs start : Bytes) (fields : List Bytes) (body : Bytes) : Prop :=
  ∃ bs', crlfLine bs = some (start, bs') ∧ Fields bs' fields body

/-- The name of a header line. -/
def fieldName (field : Bytes) : Bytes := field.takeWhile (· ≠ ch ':')

theorem crlfLine_append {w : Bytes} (hw : CR ∉ w) (rest : Bytes) :
    crlfLine (w ++ CR :: LF :: rest) = some (w, rest) := by
  induction w with
  | nil => rw [List.nil_append, crlfLine, if_pos ⟨rfl, rfl⟩]
  | cons c w ih =>
    have hc : c ≠ CR := fun h => hw (h ▸ List.mem_cons_self)
    have hrest := ih fun h => hw (List.mem_cons_of_mem c h)
    obtain ⟨d, bs, hds⟩ : ∃ d bs, w ++ CR :: LF :: rest = d :: bs := by
      cases w with
      | nil => exact ⟨CR, LF :: rest, rfl⟩
      | cons d w => exact ⟨d, w ++ CR :: LF :: rest, rfl⟩
    rw [List.cons_append, hds, crlfLine, if_neg fun h => hc h.1, ← hds, hrest]
    rfl

theorem Fields.unique {bs body body' : Bytes} {fields fields' : List Bytes}
    (h : Fields bs fields body) (h' : Fields bs fields' body') :
    fields = fields' ∧ body = body' := by
  induction h generalizing fields' body' with
  | empty hline =>
    cases h' with
    | empty hline' =>
      rw [hline, Option.some.injEq, Prod.mk.injEq] at hline'
      exact ⟨rfl, hline'.2⟩
    | field hline' hne' _ =>
      rw [hline, Option.some.injEq, Prod.mk.injEq] at hline'
      exact absurd hline'.1.symm hne'
  | field hline hne _ ih =>
    cases h' with
    | empty hline' =>
      rw [hline, Option.some.injEq, Prod.mk.injEq] at hline'
      exact absurd hline'.1 hne
    | field hline' hne' htail' =>
      rw [hline, Option.some.injEq, Prod.mk.injEq] at hline'
      obtain ⟨rfl, rfl⟩ := hline'
      obtain ⟨rfl, rfl⟩ := ih htail'
      exact ⟨rfl, rfl⟩

theorem Message.unique {bs start start' body body' : Bytes} {fields fields' : List Bytes}
    (h : Message bs start fields body) (h' : Message bs start' fields' body') :
    start = start' ∧ fields = fields' ∧ body = body' := by
  obtain ⟨rest, hline, hfields⟩ := h
  obtain ⟨rest', hline', hfields'⟩ := h'
  rw [hline, Option.some.injEq, Prod.mk.injEq] at hline'
  obtain ⟨rfl, rfl⟩ := hline'
  exact ⟨rfl, hfields.unique hfields'⟩

end HttpMessage
