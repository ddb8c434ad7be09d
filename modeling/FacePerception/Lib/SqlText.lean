import FacePerception.Lib.CString

/-!
# The tokens of an SQL text

MySQL's rules for string literals in single quotes, as a scanner that takes one byte after
the other. Outside the literals it tells words, blanks and single characters apart.

* `scan_append`: a text is scanned piece by piece.
* `textLength_le`: a text is at least as long as its tokens.
* `scan_literal_iff`: which strings are read back when they are put between quotes.
-/

namespace SqlText

open CString

def QUOTE : UInt8 := ch '\''
def BACKSLASH : UInt8 := ch '\\'

inductive Token
  | word (w : Bytes)
  /-- A string literal, decoded. -/
  | str (value : Bytes)
  | punct (c : UInt8)
deriving DecidableEq

/-- Where the scanner is: `escape` behind a backslash, `quote` behind a quote that ends the
literal unless another one follows. -/
inductive State
  | between
  | word (w : Bytes)
  | literal (value : Bytes)
  | escape (value : Bytes)
  | quote (value : Bytes)
deriving DecidableEq

/-- What a backslash and the byte `c` behind it stand for. -/
def unescape (c : UInt8) : Bytes :=
  if c = ch '%' ∨ c = ch '_' then [BACKSLASH, c]
  else if c = ch '0' then [NUL]
  else if c = ch 'b' then [8]
  else if c = ch 'n' then [LF]
  else if c = ch 'r' then [CR]
  else if c = ch 't' then [9]
  else if c = ch 'Z' then [26]
  else [c]

def isWordByte (c : UInt8) : Bool :=
  isDigit c ∨ ch 'a' ≤ toLower c ∧ toLower c ≤ ch 'z' ∨ c = ch '_' ∨ c = ch '$' ∨ 128 ≤ c

/-- A byte outside the literals and behind the words. -/
def start (c : UInt8) : State × List Token :=
  if isSpace c then (.between, [])
  else if isWordByte c then (.word [c], [])
  else if c = QUOTE then (.literal [], [])
  else (.between, [.punct c])

/-- A byte: the state behind it, and the tokens that have ended. -/
def step : State → UInt8 → State × List Token
  | .between, c => start c
  | .word w, c =>
    if isWordByte c then (.word (w ++ [c]), []) else ((start c).1, .word w :: (start c).2)
  | .literal v, c =>
    if c = QUOTE then (.quote v, [])
    else if c = BACKSLASH then (.escape v, [])
    else (.literal (v ++ [c]), [])
  | .escape v, c => (.literal (v ++ unescape c), [])
  | .quote v, c =>
    if c = QUOTE then (.literal (v ++ [QUOTE]), []) else ((start c).1, .str v :: (start c).2)

def run : State → Bytes → State × List Token
  | st, [] => (st, [])
  | st, c :: s => ((run (step st c).1 s).1, (step st c).2 ++ (run (step st c).1 s).2)

/-- The last token; `none` inside a literal. -/
def State.finish : State → Option (List Token)
  | .between => some []
  | .word w => some [.word w]
  | .literal _ => none
  | .escape _ => none
  | .quote v => some [.str v]

def scan (st : State) (s : Bytes) : Option (List Token) :=
  (run st s).1.finish.map ((run st s).2 ++ ·)

/-- The tokens of a text; `none` if its last literal is not ended. -/
def tokens (s : Bytes) : Option (List Token) := scan .between s

/-! ## Piece by piece -/

theorem run_append (st : State) (s t : Bytes) :
    run st (s ++ t) =
      ((run (run st s).1 t).1, (run st s).2 ++ (run (run st s).1 t).2) := by
  induction s generalizing st with
  | nil => rfl
  | cons c s ih => rw [List.cons_append, run, ih, run, List.append_assoc]

theorem scan_append (st : State) (s t : Bytes) :
    scan st (s ++ t) = (scan (run st s).1 t).map ((run st s).2 ++ ·) := by
  rw [scan, run_append, scan, Option.map_map]
  congr 1
  funext toks
  exact List.append_assoc ..

theorem scan_nil (st : State) : scan st [] = st.finish := by
  show st.finish.map ([] ++ ·) = _
  exact Option.map_id' ..

theorem scan_cons (st : State) (c : UInt8) (s : Bytes) :
    scan st (c :: s) = (scan (step st c).1 s).map ((step st c).2 ++ ·) := by
  have h := scan_append st [c] s
  rwa [show (run st [c]).2 = (step st c).2 from List.append_nil _] at h

theorem scan_cons_silent {st st' : State} {c : UInt8} (h : step st c = (st', [])) (s : Bytes) :
    scan st (c :: s) = scan st' s := by
  rw [scan_cons, h]
  exact Option.map_id' ..

/-! ## Lengths -/

/-- The bytes a token takes at least. -/
def Token.length : Token → ℕ
  | .word w => w.length
  | .str v => v.length + 2
  | .punct _ => 1

def textLength (toks : List Token) : ℕ := (toks.map Token.length).sum

/-- The bytes of the token that has begun. -/
def State.length : State → ℕ
  | .between => 0
  | .word w => w.length
  | .literal v => v.length + 1
  | .escape v => v.length + 2
  | .quote v => v.length + 2

@[simp] theorem textLength_nil : textLength [] = 0 := rfl

@[simp] theorem textLength_cons (tok : Token) (toks : List Token) :
    textLength (tok :: toks) = tok.length + textLength toks := List.sum_cons

theorem textLength_append (toks toks' : List Token) :
    textLength (toks ++ toks') = textLength toks + textLength toks' := by
  rw [textLength, List.map_append, List.sum_append]
  rfl

theorem length_unescape (c : UInt8) :
    (unescape c).length = if c = ch '%' ∨ c = ch '_' then 2 else 1 := by
  unfold unescape
  split_ifs <;> rfl

theorem start_length (c : UInt8) : textLength (start c).2 + (start c).1.length ≤ 1 := by
  unfold start
  split_ifs <;> simp [State.length, Token.length]

theorem step_length (st : State) (c : UInt8) :
    textLength (step st c).2 + (step st c).1.length ≤ st.length + 1 := by
  have hstart := start_length c
  cases st with
  | between =>
    rw [step, State.length]
    omega
  | word w =>
    simp only [step]
    split_ifs
    · simp [State.length]
    · rw [textLength_cons, Token.length, State.length]
      dsimp only
      omega
  | literal v =>
    simp only [step]
    split_ifs <;> simp [State.length]
  | escape v =>
    have hlen : (unescape c).length ≤ 2 := by
      rw [length_unescape]
      split_ifs <;> omega
    simp only [step, State.length, textLength_nil, List.length_append]
    omega
  | quote v =>
    simp only [step]
    split_ifs
    · simp [State.length]
    · rw [textLength_cons, Token.length, State.length]
      dsimp only
      omega

theorem finish_length {st : State} {toks : List Token} (h : st.finish = some toks) :
    textLength toks ≤ st.length := by
  cases st with
  | between =>
    obtain rfl := Option.some.inj h
    exact Nat.le_refl _
  | word w =>
    obtain rfl := Option.some.inj h
    exact Nat.le_refl _
  | literal v => cases h
  | escape v => cases h
  | quote v =>
    obtain rfl := Option.some.inj h
    exact Nat.le_refl _

/-- **A text is at least as long as its tokens.** -/
theorem textLength_le {s : Bytes} {st : State} {toks : List Token}
    (h : scan st s = some toks) : textLength toks ≤ st.length + s.length := by
  induction s generalizing st toks with
  | nil =>
    rw [scan_nil] at h
    exact finish_length h
  | cons c s ih =>
    rw [scan_cons, Option.map_eq_some_iff] at h
    obtain ⟨toks', hscan, rfl⟩ := h
    have hrest := ih hscan
    have hstep := step_length st c
    rw [textLength_append, List.length_cons]
    omega

/-! ## Literals -/

/-- A string that stands for itself between two quotes. -/
structure Verbatim (f : Bytes) : Prop where
  quote : QUOTE ∉ f
  escape : ∀ u v, f = u ++ BACKSLASH :: v → ∃ c w, v = c :: w ∧ (c = ch '%' ∨ c = ch '_')

theorem verbatim_nil : Verbatim [] where
  quote := List.not_mem_nil
  escape u v h := by simp at h

theorem verbatim_cons {c : UInt8} (hquote : c ≠ QUOTE) (hback : c ≠ BACKSLASH) (f : Bytes) :
    Verbatim (c :: f) ↔ Verbatim f := by
  constructor
  · intro h
    refine ⟨fun hmem => h.quote (List.mem_cons_of_mem c hmem), fun u v heq => ?_⟩
    exact h.escape (c :: u) v (by rw [heq, List.cons_append])
  · intro h
    refine ⟨?_, fun u v heq => ?_⟩
    · rw [List.mem_cons, not_or]
      exact ⟨hquote.symm, h.quote⟩
    · cases u with
      | nil =>
        rw [List.nil_append, List.cons.injEq] at heq
        exact absurd heq.1 hback
      | cons d u =>
        rw [List.cons_append, List.cons.injEq] at heq
        exact h.escape u v heq.2

theorem not_verbatim_quote (f : Bytes) : ¬ Verbatim (QUOTE :: f) :=
  fun h => h.quote List.mem_cons_self

theorem not_verbatim_backslash : ¬ Verbatim [BACKSLASH] := by
  intro h
  obtain ⟨c, w, heq, -⟩ := h.escape [] [] rfl
  cases heq

theorem verbatim_escape {c : UInt8} (f : Bytes) :
    Verbatim (BACKSLASH :: c :: f) ↔ (c = ch '%' ∨ c = ch '_') ∧ Verbatim f := by
  have hne : ∀ {c}, c = ch '%' ∨ c = ch '_' → c ≠ QUOTE ∧ c ≠ BACKSLASH := by
    rintro c (rfl | rfl) <;> decide
  constructor
  · intro h
    obtain ⟨d, w, heq, hd⟩ := h.escape [] (c :: f) rfl
    obtain ⟨rfl, rfl⟩ := List.cons.inj heq
    refine ⟨hd, (verbatim_cons (hne hd).1 (hne hd).2 f).mp ?_⟩
    refine ⟨fun hmem => h.quote (List.mem_cons_of_mem _ hmem), fun u v hu => ?_⟩
    exact h.escape (BACKSLASH :: u) v (by rw [hu, List.cons_append])
  · intro ⟨hc, hf⟩
    have hcf := (verbatim_cons (hne hc).1 (hne hc).2 f).mpr hf
    refine ⟨?_, fun u v heq => ?_⟩
    · rw [List.mem_cons, not_or]
      exact ⟨by decide, hcf.quote⟩
    · cases u with
      | nil =>
        rw [List.nil_append, List.cons.injEq] at heq
        exact ⟨c, f, heq.2.symm, hc⟩
      | cons d u =>
        rw [List.cons_append, List.cons.injEq] at heq
        exact hcf.escape u v heq.2

theorem scan_literal_quote (v s : Bytes) : scan (.literal v) (QUOTE :: s) = scan (.quote v) s := by
  apply scan_cons_silent
  simp [step]

theorem scan_literal_backslash (v s : Bytes) :
    scan (.literal v) (BACKSLASH :: s) = scan (.escape v) s := by
  have hne : BACKSLASH ≠ QUOTE := by decide
  apply scan_cons_silent
  simp [step, hne]

theorem scan_literal_byte {c : UInt8} (hquote : c ≠ QUOTE) (hback : c ≠ BACKSLASH)
    (v s : Bytes) : scan (.literal v) (c :: s) = scan (.literal (v ++ [c])) s := by
  apply scan_cons_silent
  simp [step, hquote, hback]

theorem scan_escape (v : Bytes) (c : UInt8) (s : Bytes) :
    scan (.escape v) (c :: s) = scan (.literal (v ++ unescape c)) s :=
  scan_cons_silent rfl s

theorem scan_quote_quote (v s : Bytes) :
    scan (.quote v) (QUOTE :: s) = scan (.literal (v ++ [QUOTE])) s := by
  apply scan_cons_silent
  simp [step]

/-- A literal has ended where no second quote follows. -/
theorem scan_quote_end {s : Bytes} (h : s.head? ≠ some QUOTE) (v : Bytes) :
    scan (.quote v) s = (scan .between s).map (.str v :: ·) := by
  cases s with
  | nil => rw [scan_nil, scan_nil, State.finish, State.finish, Option.map_some]
  | cons c s =>
    have hc : c ≠ QUOTE := fun heq => h (congrArg some heq)
    have hstep : step (.quote v) c = ((start c).1, .str v :: (start c).2) := by simp [step, hc]
    rw [scan_cons, scan_cons, hstep, Option.map_map]
    rfl

theorem scan_ne_of_length_lt {st : State} {s : Bytes} {toks : List Token}
    (h : st.length + s.length < textLength toks) : scan st s ≠ some toks := by
  intro hscan
  have hle := textLength_le hscan
  omega

theorem textLength_str_cons (v f : Bytes) (toks : List Token) :
    textLength (.str (v ++ f) :: toks) = v.length + f.length + 2 + textLength toks := by
  rw [textLength_cons, Token.length, List.length_append]

section Literal

variable {rest : Bytes} {toks : List Token}

/-- A quote in `f` ends the literal too early, or it is doubled and a byte is lost. -/
theorem scan_quote_ne (hlen : rest.length ≤ textLength toks) (f v : Bytes) :
    scan (.quote v) (f ++ QUOTE :: rest) ≠ some (.str (v ++ QUOTE :: f) :: toks) := by
  by_cases hhead : (f ++ QUOTE :: rest).head? = some QUOTE
  · obtain ⟨s, hs⟩ := List.head?_eq_some_iff.mp hhead
    have hlength := congrArg List.length hs
    rw [List.length_append, List.length_cons, List.length_cons] at hlength
    rw [hs, scan_quote_quote]
    apply scan_ne_of_length_lt
    rw [State.length, List.length_append, List.length_singleton, textLength_str_cons,
      List.length_cons]
    omega
  · rw [scan_quote_end hhead]
    intro heq
    obtain ⟨_, -, heq⟩ := Option.map_eq_some_iff.mp heq
    have hv := congrArg List.length (Token.str.inj (List.cons.inj heq).1)
    rw [List.length_append, List.length_cons] at hv
    omega

/-- An escape that does not stand for itself loses a byte. -/
theorem scan_escape_ne {d : UInt8} (hd : ¬ (d = ch '%' ∨ d = ch '_')) {s f : Bytes}
    (hlen : s.length ≤ f.length + textLength toks) (v : Bytes) :
    scan (.escape v) (d :: s) ≠ some (.str (v ++ BACKSLASH :: f) :: toks) := by
  rw [scan_escape]
  apply scan_ne_of_length_lt
  rw [State.length, List.length_append, length_unescape, if_neg hd, textLength_str_cons,
    List.length_cons]
  omega

/-- **Which strings are read back.** Between quotes `f` gives the literal `f`, and the rest
of the text as many tokens as it has room for, only if `f` is verbatim: every escape and
every doubled quote takes a byte more than it stands for. -/
theorem scan_literal_iff (hrest : rest.head? ≠ some QUOTE) (hlen : rest.length ≤ textLength toks)
    (f v : Bytes) :
    scan (.literal v) (f ++ QUOTE :: rest) = some (.str (v ++ f) :: toks) ↔
      Verbatim f ∧ scan .between rest = some toks := by
  induction hn : f.length using Nat.strong_induction_on generalizing f v with
  | _ n ih =>
    cases f with
    | nil =>
      rw [List.nil_append, scan_literal_quote, scan_quote_end hrest, List.append_nil]
      simp [verbatim_nil]
    | cons c f =>
      rw [List.length_cons] at hn
      by_cases hquote : c = QUOTE
      · subst hquote
        rw [List.cons_append, scan_literal_quote]
        exact iff_of_false (scan_quote_ne hlen f v) (fun h => not_verbatim_quote f h.1)
      · by_cases hback : c = BACKSLASH
        · subst hback
          rw [List.cons_append, scan_literal_backslash]
          cases f with
          | nil =>
            refine iff_of_false ?_ (fun h => not_verbatim_backslash h.1)
            exact scan_escape_ne (by decide) (by simpa using hlen) v
          | cons d f =>
            rw [List.cons_append, verbatim_escape]
            by_cases hd : d = ch '%' ∨ d = ch '_'
            · have hsplit : v ++ BACKSLASH :: d :: f = (v ++ unescape d) ++ f := by
                rw [unescape, if_pos hd, List.append_assoc]
                rfl
              rw [List.length_cons] at hn
              rw [scan_escape, hsplit, and_iff_right hd]
              exact ih f.length (by omega) f _ rfl
            · refine iff_of_false (scan_escape_ne hd ?_ v) (fun h => hd h.1.1)
              rw [List.length_append, List.length_cons, List.length_cons]
              omega
        · have hsplit : v ++ c :: f = (v ++ [c]) ++ f := List.append_cons ..
          rw [List.cons_append, scan_literal_byte hquote hback, verbatim_cons hquote hback, hsplit]
          exact ih f.length (by omega) f (v ++ [c]) rfl

end Literal

end SqlText
