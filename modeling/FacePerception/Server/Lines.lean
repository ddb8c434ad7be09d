import FacePerception.Server.Header

/-!
# Lines of a text, read by successive calls of `get_line`

`get_line` (`server/server_http.h`, lines 198–228) reads one byte more behind every
byte that ends a line. Its comment asks for that behind a CR only. Behind a bare LF
that byte is the first one of the next line, and it is lost.

Results:
* `mem_getLines_iff`, `Calls.unique`: what successive calls return.
* `calls_length_le`: the lines of a text are read by no more calls than there are lines.
* `splits_iff`: the texts that successive calls split into their lines.
-/

namespace FacePerception.Server

open CString

/-! ## Successive calls -/

/-- `k` successive calls: the lines left in `buf`, and what is left to read. -/
def getLines (size : ℕ) : ℕ → Bytes → Computation (List Bytes × Bytes)
  | 0, sock => .pure ([], sock)
  | k + 1, sock => do
    let (line, sock) ← getLine size sock
    let (lines, rest) ← getLines size k sock
    .pure (line :: lines, rest)

/-- Successive calls with a `buf` of `n + 1` bytes return these lines and leave `rest`. -/
inductive Calls (n : ℕ) : Bytes → List Bytes → Bytes → Prop
  | nil (sock : Bytes) : Calls n sock [] sock
  | cons {sock line sock' rest : Bytes} {lines : List Bytes}
      (hread : readLine n sock = some (line, sock')) (htail : Calls n sock' lines rest) :
      Calls n sock (line :: lines) rest

/-- **Successive calls return what `Calls` says.** -/
theorem mem_getLines_iff (size k : ℕ) (sock : Bytes) (lines : List Bytes) (rest : Bytes) :
    (lines, rest) ∈ getLines size k sock ↔ lines.length = k ∧ Calls (size - 1) sock lines rest := by
  induction k generalizing sock lines rest with
  | zero =>
    rw [getLines]
    show (lines, rest) ∈ Computation.pure _ ↔ _
    rw [Computation.mem_pure_iff, List.length_eq_zero_iff, Prod.mk.injEq]
    constructor
    · rintro ⟨rfl, rfl⟩
      exact ⟨rfl, .nil _⟩
    · rintro ⟨rfl, hcalls⟩
      cases hcalls
      exact ⟨rfl, rfl⟩
  | succ k ih =>
    simp only [getLines, Computation.mem_bind_iff, Prod.exists, mem_getLine_iff, ih,
      Computation.mem_pure_iff, Prod.mk.injEq]
    constructor
    · rintro ⟨line, sock', hread, lines', rest', ⟨hlen, hcalls⟩, rfl, rfl⟩
      exact ⟨congrArg (· + 1) hlen, .cons hread hcalls⟩
    · intro ⟨hlen, hcalls⟩
      cases hcalls with
      | nil => cases hlen
      | cons hread htail => exact ⟨_, _, hread, _, _, ⟨Nat.succ_injective hlen, htail⟩, rfl, rfl⟩

section Calls

variable {n : ℕ} {sock line rest : Bytes} {lines lines' : List Bytes}

theorem calls_cons_iff :
    Calls n sock (line :: lines) rest ↔
      ∃ sock', readLine n sock = some (line, sock') ∧ Calls n sock' lines rest := by
  constructor
  · intro h
    cases h with
    | cons hread htail => exact ⟨_, hread, htail⟩
  · intro ⟨_, hread, htail⟩
    exact .cons hread htail

/-- When the first call is known, the others read from where it has stopped. -/
theorem calls_cons_iff_of_read {first sock' : Bytes}
    (hread : readLine n sock = some (first, sock')) :
    Calls n sock (line :: lines) rest ↔ line = first ∧ Calls n sock' lines rest := by
  rw [calls_cons_iff]
  constructor
  · intro ⟨_, hread', htail⟩
    obtain ⟨rfl, rfl⟩ := readLine_unique hread hread'
    exact ⟨rfl, htail⟩
  · rintro ⟨rfl, htail⟩
    exact ⟨_, hread, htail⟩

theorem Calls.left (h : Calls n sock (lines ++ lines') rest) :
    ∃ rest', Calls n sock lines rest' := by
  induction lines generalizing sock with
  | nil => exact ⟨sock, .nil sock⟩
  | cons line lines ih =>
    obtain ⟨sock', hread, htail⟩ := calls_cons_iff.mp h
    obtain ⟨rest', hcalls⟩ := ih htail
    exact ⟨rest', .cons hread hcalls⟩

end Calls

/-! ## Texts -/

inductive Terminator
  | crlf
  | lf
deriving DecidableEq

def Terminator.bytes : Terminator → Bytes
  | .crlf => [CR, LF]
  | .lf => [LF]

/-- A line of a text and how it ends. -/
structure TextLine where
  text : Bytes
  terminator : Terminator
deriving DecidableEq

def TextLine.bytes (l : TextLine) : Bytes := l.text ++ l.terminator.bytes

/-- The bytes of a text. -/
def stream (ls : List TextLine) : Bytes := ls.flatMap TextLine.bytes

/-- A line without CR, LF and `'\0'` that leaves room for `'\n'` and `'\0'` in `buf`. -/
def TextLine.Short (size : ℕ) (l : TextLine) : Prop :=
  (∀ c ∈ l.text, Ordinary c) ∧ l.text.length + 2 ≤ size

instance decidableShort (size : ℕ) (l : TextLine) : Decidable (l.Short size) :=
  @instDecidableAnd _ _ (List.decidableBAll Ordinary l.text) _

/-- Every line of a text with a `'\n'` behind it, and then an empty one, which is what
`get_line` leaves when it returns 0. -/
def expected (ls : List TextLine) : List Bytes := ls.map (·.text ++ [LF]) ++ [[]]

/-- Successive calls split the text into its lines. -/
def Splits (size : ℕ) (ls : List TextLine) : Prop :=
  ∃ rest, (expected ls, rest) ∈ getLines size (ls.length + 1) (stream ls)

/-! ## Reading a text -/

/-- What is left behind a line: of the next one the byte behind a bare LF is gone. -/
def behind (t : Terminator) (ls : List TextLine) : Bytes :=
  match t with
  | .crlf => stream ls
  | .lf => (stream ls).tail

theorem stream_cons (l : TextLine) (ls : List TextLine) :
    stream (l :: ls) = l.text ++ l.terminator.bytes ++ stream ls := List.flatMap_cons

theorem expected_cons (l : TextLine) (ls : List TextLine) :
    expected (l :: ls) = (l.text ++ [LF]) :: expected ls := rfl

theorem behind_eq (t : Terminator) (ls : List TextLine) :
    behind t ls = stream ls ∨ behind t ls = (stream ls).tail := by
  cases t with
  | crlf => exact Or.inl rfl
  | lf => exact Or.inr rfl

section Text

variable {n : ℕ} {ls : List TextLine}

theorem nul_notMem_stream (hls : ∀ l ∈ ls, l.Short (n + 1)) : NUL ∉ stream ls := by
  intro hmem
  obtain ⟨l, hl, hmem⟩ := List.mem_flatMap.mp hmem
  rcases List.mem_append.mp hmem with hmem | hmem
  · exact ((hls l hl).1 NUL hmem).ne_nul rfl
  · cases hterm : l.terminator with
    | crlf => rw [hterm] at hmem; exact absurd hmem (by decide)
    | lf => rw [hterm] at hmem; exact absurd hmem (by decide)

/-- One call reads the line up to its end, and the byte behind a bare LF. -/
theorem readLine_text (hls : ∀ l ∈ ls, l.Short (n + 1)) {w : Bytes} (hw : ∀ c ∈ w, Ordinary c)
    (hlen : w.length < n) (t : Terminator) :
    readLine n (w ++ t.bytes ++ stream ls) = some (w ++ [LF], behind t ls) := by
  rw [List.append_assoc]
  cases t with
  | crlf => exact readLine_crlf hw hlen (stream ls)
  | lf =>
    have hne : (stream ls).headD LF ≠ NUL := by
      have hnul := nul_notMem_stream hls
      cases hstream : stream ls with
      | nil => decide
      | cons c s =>
        rintro rfl
        rw [hstream] at hnul
        exact hnul List.mem_cons_self
    show readLine n (w ++ LF :: stream ls) = _
    rw [readLine_end hw hlen (by decide), endLine, if_neg hne]
    rfl

theorem readLine_stream {l : TextLine} (hl : l.Short (n + 1)) (hls : ∀ l ∈ ls, l.Short (n + 1)) :
    readLine n (stream (l :: ls)) = some (l.text ++ [LF], behind l.terminator ls) := by
  obtain ⟨hw, hlen⟩ := hl
  rw [stream_cons]
  exact readLine_text hls hw (by omega) l.terminator

/-- The first byte of a line that is not empty is missing. -/
theorem readLine_tail {c : UInt8} {w : Bytes} {t : Terminator}
    (hl : TextLine.Short (n + 1) ⟨c :: w, t⟩) (hls : ∀ l ∈ ls, l.Short (n + 1)) :
    readLine n (stream (⟨c :: w, t⟩ :: ls)).tail = some (w ++ [LF], behind t ls) := by
  obtain ⟨hw, hlen⟩ := hl
  rw [List.length_cons] at hlen
  rw [stream_cons]
  exact readLine_text hls (List.forall_mem_cons.mp hw).2 (by omega) t

/-- Of an empty line with CRLF the LF is left. -/
theorem readLine_tail_crlf (hn : 0 < n) (hls : ∀ l ∈ ls, l.Short (n + 1)) :
    readLine n (stream (⟨[], .crlf⟩ :: ls)).tail = some ([LF], (stream ls).tail) :=
  readLine_text hls (w := []) (by simp) hn .lf

theorem stream_lf_tail (ls : List TextLine) : (stream (⟨[], .lf⟩ :: ls)).tail = stream ls := rfl

/-- **A text is read by no more calls than it has lines**, whether its first byte is
missing or not. -/
theorem calls_length_le (hn : 0 < n) {sock rest : Bytes} {lines : List Bytes}
    (hls : ∀ l ∈ ls, l.Short (n + 1)) (hcalls : Calls n sock lines rest)
    (hsock : sock = stream ls ∨ sock = (stream ls).tail) (hne : ∀ line ∈ lines, line ≠ []) :
    lines.length ≤ ls.length := by
  induction ls generalizing sock lines with
  | nil =>
    have hnil : sock = [] := by
      rcases hsock with rfl | rfl <;> rfl
    cases hcalls with
    | nil => exact le_rfl
    | cons hread htail =>
      rw [hnil, readLine_nil, Option.some.injEq, Prod.mk.injEq] at hread
      exact absurd hread.1.symm (hne _ List.mem_cons_self)
  | cons l ls ih =>
    obtain ⟨hl, hls'⟩ := List.forall_mem_cons.mp hls
    cases hcalls with
    | nil => exact Nat.zero_le _
    | @cons _ line sock' _ lines hread htail =>
      have hne' := (List.forall_mem_cons.mp hne).2
      have hgo : ∀ t w, readLine n sock = some (w, behind t ls) → lines.length ≤ ls.length := by
        intro t w hread'
        obtain ⟨-, rfl⟩ := readLine_unique hread hread'
        exact ih hls' htail (behind_eq t ls) hne'
      rw [List.length_cons, List.length_cons]
      rcases hsock with rfl | rfl
      · exact Nat.succ_le_succ (hgo _ _ (readLine_stream hl hls'))
      · obtain ⟨text, t⟩ := l
        cases text with
        | cons c w => exact Nat.succ_le_succ (hgo _ _ (readLine_tail hl hls'))
        | nil =>
          cases t with
          | crlf => exact Nat.succ_le_succ (hgo .lf _ (readLine_tail_crlf hn hls'))
          | lf =>
            rw [stream_lf_tail] at hread
            have hall := ih hls' (.cons hread htail) (Or.inl rfl) hne
            exact Nat.le_succ_of_le hall

theorem expected_ne_nil (ls : List TextLine) : ∀ line ∈ ls.map (·.text ++ [LF]), line ≠ [] := by
  intro line hline
  obtain ⟨l, -, rfl⟩ := List.mem_map.mp hline
  exact List.append_ne_nil_of_right_ne_nil _ (List.cons_ne_nil _ _)

/-- Behind a bare LF only empty lines with CRLF are still read as they should be: the
byte that each line has lost is the CR. -/
theorem calls_behind_lf (hn : 0 < n) (hls : ∀ l ∈ ls, l.Short (n + 1)) :
    (∃ rest, Calls n (stream ls).tail (expected ls) rest) ↔ ∀ l ∈ ls, l = ⟨[], .crlf⟩ := by
  induction ls with
  | nil => exact iff_of_true ⟨[], .cons (readLine_nil n) (.nil [])⟩ (by simp)
  | cons l ls ih =>
    obtain ⟨hl, hls'⟩ := List.forall_mem_cons.mp hls
    rw [List.forall_mem_cons, expected_cons]
    obtain ⟨text, t⟩ := l
    cases text with
    | cons c w =>
      -- the call returns the line without its first byte
      refine iff_of_false ?_ (fun h => by simpa using h.1)
      intro ⟨rest, hcalls⟩
      have hline := ((calls_cons_iff_of_read (readLine_tail hl hls')).mp hcalls).1
      have hlen := congrArg List.length hline
      simp at hlen
    | nil =>
      cases t with
      | crlf =>
        simp only [calls_cons_iff_of_read (readLine_tail_crlf hn hls'), List.nil_append, true_and,
          ih hls']
      | lf =>
        -- the line is gone, so that one call too many is expected
        refine iff_of_false ?_ (fun h => by simpa using h.1)
        intro ⟨rest, hcalls⟩
        rw [stream_lf_tail, expected, ← List.cons_append] at hcalls
        obtain ⟨rest', hfirst⟩ := hcalls.left
        have hne : ∀ line ∈ ([] ++ [LF]) :: ls.map (·.text ++ [LF]), line ≠ [] :=
          List.forall_mem_cons.mpr ⟨by simp, expected_ne_nil ls⟩
        have hlen := calls_length_le hn hls' hfirst (Or.inl rfl) hne
        rw [List.length_cons, List.length_map] at hlen
        omega

theorem calls_stream (hn : 0 < n) (hls : ∀ l ∈ ls, l.Short (n + 1)) :
    (∃ rest, Calls n (stream ls) (expected ls) rest) ↔
      ls.Pairwise fun l l' => l.terminator = .lf → l' = ⟨[], .crlf⟩ := by
  induction ls with
  | nil => exact iff_of_true ⟨[], .cons (readLine_nil n) (.nil [])⟩ .nil
  | cons l ls ih =>
    obtain ⟨hl, hls'⟩ := List.forall_mem_cons.mp hls
    simp only [expected_cons, calls_cons_iff_of_read (readLine_stream hl hls'), true_and,
      List.pairwise_cons]
    cases l.terminator with
    | crlf => simp only [behind, ih hls', reduceCtorEq, false_imp_iff, implies_true, true_and]
    | lf =>
      simp only [behind, calls_behind_lf hn hls', forall_const, iff_self_and]
      intro hall
      exact List.pairwise_iff_forall_sublist.mpr fun hsub _ =>
        hall _ (hsub.subset (by simp))

end Text

/-- **Successive calls split a text into its lines iff behind a line with a bare LF there
are only empty lines with CRLF.** -/
theorem splits_iff {size : ℕ} (hsize : 0 < size) (ls : List TextLine)
    (hls : ∀ l ∈ ls, l.Short size) :
    Splits size ls ↔ ls.Pairwise fun l l' => l.terminator = .lf → l' = ⟨[], .crlf⟩ := by
  obtain ⟨n, rfl⟩ : ∃ n, size = n + 1 := ⟨size - 1, by omega⟩
  have hlen : (expected ls).length = ls.length + 1 := by
    rw [expected, List.length_append, List.length_map, List.length_singleton]
  simp only [Splits, mem_getLines_iff, hlen, true_and, Nat.add_sub_cancel]
  rcases Nat.eq_zero_or_pos n with rfl | hn
  · -- a `buf` of one byte has room for no line
    cases ls with
    | nil => exact iff_of_true ⟨[], .cons (readLine_nil 0) (.nil [])⟩ .nil
    | cons l ls =>
      have := (hls l List.mem_cons_self).2
      omega
  · exact calls_stream hn hls

/-- Two lines with CRLF, and then one with a bare LF. -/
theorem splits_iff_example :
    Splits 8 [⟨bytes "GET /", .crlf⟩, ⟨[], .crlf⟩, ⟨bytes "a", .lf⟩] ↔
      [(⟨bytes "GET /", .crlf⟩ : TextLine), ⟨[], .crlf⟩, ⟨bytes "a", .lf⟩].Pairwise
        fun l l' => l.terminator = .lf → l' = ⟨[], .crlf⟩ :=
  splits_iff (by decide) _ (by decide)

/-- Of two lines with a bare LF the second loses its first byte. -/
theorem not_splits_lf :
    (∀ l ∈ [(⟨bytes "a", .lf⟩ : TextLine), ⟨bytes "bc", .lf⟩], l.Short 8) ∧
      ¬ Splits 8 [⟨bytes "a", .lf⟩, ⟨bytes "bc", .lf⟩] := by
  refine ⟨by decide, ?_⟩
  intro ⟨rest, h⟩
  obtain ⟨-, hcalls⟩ := (mem_getLines_iff _ _ _ _ _).mp h
  have hfirst : readLine (8 - 1) (stream [⟨bytes "a", .lf⟩, ⟨bytes "bc", .lf⟩]) =
      some (bytes "a" ++ [LF], bytes "c" ++ [LF]) := by decide
  have hsecond : readLine (8 - 1) (bytes "c" ++ [LF]) = some (bytes "c" ++ [LF], []) := by decide
  have htail := ((calls_cons_iff_of_read hfirst).mp hcalls).2
  exact absurd ((calls_cons_iff_of_read hsecond).mp htail).1 (by decide)

end FacePerception.Server
