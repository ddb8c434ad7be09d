import FacePerception.Server.GetLine

/-!
# The header loops

Models of the three loops that read the headers of a request
(`server/server_http.h`): the one of `exec_get_file` (lines 259–268), `clear_head`
(lines 381–390) and the one in the POST branch of `exec_cgi` (lines 409–417).

Results:
* `mem_headerLoop_iff`, `mem_getFileHeader_iff`: all three read the same lines and
  leave the same rest.
* `exists_header_iff`: they end unless the stream breaks off inside a line.
* `header_block`: on header lines shorter than `SIZE-1` bytes they read line by
  line up to the empty one.
* `header_loops_iff`: on header lines of any length they stop behind the first
  empty line exactly when no line is a multiple of `SIZE-1` bytes long.
-/

namespace FacePerception.Server

open CString

/-! ## The loops -/

/-- `do … while` around `get_line`: `take` is what the body does with the line,
`again` the condition. -/
def headerLoop {σ : Type} (take : σ → Bytes → σ) (again : Bytes → Bool) (a : σ) (sock : Bytes) :
    Computation (σ × Bytes) :=
  Computation.loop (fun s : σ × Bytes =>
    (fun r => if again r.1 then Sum.inr (take s.1 r.1, r.2) else Sum.inl (take s.1 r.1, r.2)) <$>
      getLine SIZE s.2) (a, sock)

/-- `clear_head` (lines 381–390). -/
def clearHead (sock : Bytes) : Computation (Unit × Bytes) :=
  headerLoop (fun _ _ => ()) (fun buf => buf.length > 0 ∧ strcaseEq buf [LF] = false) () sock

/-- `str` in `exec_cgi` (line 409). -/
def contentLengthStr : Bytes := bytes "Content-Length:"

/-- Lines 415–416: `content_length` after a header line. -/
def takeContentLength (contentLength : ℤ) (buf : Bytes) : ℤ :=
  let len := strlen contentLengthStr
  if strncmpEq buf contentLengthStr len then atoi (buf.drop (len + 1)) else contentLength

/-- The header loop of the POST branch (lines 411–417): `content_length`. -/
def postHeader (sock : Bytes) : Computation (ℤ × Bytes) :=
  headerLoop takeContentLength (fun buf => buf.length > 0 ∧ buf ≠ [LF]) 0 sock

/-- The variables of `exec_get_file`'s loop. -/
structure GetFileState where
  num : ℤ
  buf : Bytes
  sock : Bytes

/-- One turn of the `while` loop of `exec_get_file` (lines 264–268). -/
def getFileTurn (s : GetFileState) : Computation (Bytes ⊕ GetFileState) :=
  if s.num > 0 ∧ s.buf ≠ [LF] then
    (fun r => Sum.inr ⟨r.1.length, r.1, r.2⟩) <$> getLine SIZE s.sock
  else pure (Sum.inl s.sock)

/-- The header loop of `exec_get_file` (lines 259–268). -/
def getFileHeader (sock : Bytes) : Computation (Unit × Bytes) :=
  (fun rest => ((), rest)) <$> Computation.loop getFileTurn ⟨1, [], sock⟩

/-! ## What the loops read -/

/-- The lines at which a header loop stops. -/
def EndsHeader (line : Bytes) : Prop := line = [] ∨ line = [LF]

instance decidableEndsHeader (line : Bytes) : Decidable (EndsHeader line) :=
  inferInstanceAs (Decidable (_ ∨ _))

theorem not_endsHeader_append_LF {w : Bytes} (hne : w ≠ []) : ¬ EndsHeader (w ++ [LF]) := by
  rintro (h | h)
  · simp at h
  · exact hne (by simpa using h)

/-- A header loop on `sock` reads `lines`, up to the one it stops at, and leaves
`rest`. -/
inductive Header (n : ℕ) : Bytes → List Bytes → Bytes → Prop
  | last {sock line rest : Bytes} (hread : readLine n sock = some (line, rest))
      (hend : EndsHeader line) : Header n sock [line] rest
  | next {sock line sock' rest : Bytes} {lines : List Bytes}
      (hread : readLine n sock = some (line, sock')) (hend : ¬ EndsHeader line)
      (htail : Header n sock' lines rest) : Header n sock (line :: lines) rest

theorem readLine_unique {n : ℕ} {sock line line' rest rest' : Bytes}
    (h : readLine n sock = some (line, rest)) (h' : readLine n sock = some (line', rest')) :
    line = line' ∧ rest = rest' := by
  rw [h, Option.some.injEq, Prod.mk.injEq] at h'
  exact h'

theorem Header.unique {n : ℕ} {sock rest rest' : Bytes} {lines lines' : List Bytes}
    (h : Header n sock lines rest) (h' : Header n sock lines' rest') :
    lines = lines' ∧ rest = rest' := by
  induction h generalizing lines' rest' with
  | last hread hend =>
    cases h' with
    | last hread' hend' =>
      obtain ⟨rfl, rfl⟩ := readLine_unique hread hread'
      exact ⟨rfl, rfl⟩
    | next hread' hend' _ =>
      obtain ⟨rfl, rfl⟩ := readLine_unique hread hread'
      exact absurd hend hend'
  | next hread hend _ ih =>
    cases h' with
    | last hread' hend' =>
      obtain ⟨rfl, rfl⟩ := readLine_unique hread hread'
      exact absurd hend' hend
    | next hread' hend' htail' =>
      obtain ⟨rfl, rfl⟩ := readLine_unique hread hread'
      obtain ⟨rfl, rfl⟩ := ih htail'
      exact ⟨rfl, rfl⟩

/-- A line that is not the last takes at least one byte. -/
theorem length_lt_of_not_endsHeader {n : ℕ} (hn : 0 < n) {sock line rest : Bytes}
    (hread : readLine n sock = some (line, rest)) (hend : ¬ EndsHeader line) :
    rest.length < sock.length := by
  have hfirst := (readLine_eq_some_iff hn sock line rest).mp hread
  apply hfirst.length_lt hn
  rintro rfl
  rw [readLine_nil, Option.some.injEq, Prod.mk.injEq] at hread
  exact hend (Or.inl hread.1.symm)

theorem mem_getLine_SIZE (sock : Bytes) (r : Bytes × Bytes) :
    r ∈ getLine SIZE sock ↔ readLine (SIZE - 1) sock = some r := mem_getLine_iff SIZE sock r

theorem SIZE_sub_one_pos : 0 < SIZE - 1 := by decide

/-- **The `do … while` loops** read what `Header` says. -/
theorem mem_headerLoop_iff {σ : Type} (take : σ → Bytes → σ) (again : Bytes → Bool)
    (hagain : ∀ line, again line = true ↔ ¬ EndsHeader line) (a b : σ) (sock rest : Bytes) :
    (b, rest) ∈ headerLoop take again a sock ↔
      ∃ lines, Header (SIZE - 1) sock lines rest ∧ b = lines.foldl take a := by
  induction hlen : sock.length using Nat.strong_induction_on generalizing a sock with
  | _ k ih =>
    subst hlen
    rw [headerLoop, Computation.mem_loop_iff]
    simp only [Computation.mem_map_iff, mem_getLine_SIZE]
    constructor
    · rintro (⟨⟨line, rest'⟩, hread, heq⟩ | ⟨s', ⟨⟨line, rest'⟩, hread, heq⟩, hloop⟩)
      · dsimp only at heq
        split_ifs at heq with h
        obtain ⟨rfl, rfl⟩ := Prod.mk.inj (Sum.inl.inj heq)
        exact ⟨[line], .last hread (not_not.mp (mt (hagain line).mpr h)), rfl⟩
      · dsimp only at heq
        split_ifs at heq with h
        obtain rfl := Sum.inr.inj heq
        have hend := (hagain line).mp h
        have hlt := length_lt_of_not_endsHeader SIZE_sub_one_pos hread hend
        obtain ⟨lines, hheader, hb⟩ := (ih _ hlt _ rest' rfl).mp hloop
        exact ⟨line :: lines, .next hread hend hheader, hb⟩
    · rintro ⟨lines, hheader, rfl⟩
      cases hheader with
      | @last _ line _ hread hend =>
        refine Or.inl ⟨(line, rest), hread, ?_⟩
        rw [if_neg (fun h => (hagain line).mp h hend)]
        rfl
      | @next _ line sock' _ lines hread hend htail =>
        have hlt := length_lt_of_not_endsHeader SIZE_sub_one_pos hread hend
        refine Or.inr ⟨(take a line, sock'), ⟨(line, sock'), hread, ?_⟩, ?_⟩
        · rw [if_pos ((hagain line).mpr hend)]
        · exact (ih _ hlt _ sock' rfl).mpr ⟨lines, htail, rfl⟩

theorem again_clearHead (line : Bytes) :
    decide (line.length > 0 ∧ strcaseEq line [LF] = false) = true ↔ ¬ EndsHeader line := by
  rw [decide_eq_true_eq, EndsHeader, not_or, ← strcaseEq_LF, Bool.not_eq_true, gt_iff_lt,
    List.length_pos_iff]

theorem again_postHeader (line : Bytes) :
    decide (line.length > 0 ∧ line ≠ [LF]) = true ↔ ¬ EndsHeader line := by
  rw [decide_eq_true_eq, EndsHeader, not_or, gt_iff_lt, List.length_pos_iff]

theorem again_getFile (line : Bytes) :
    (line.length : ℤ) > 0 ∧ line ≠ [LF] ↔ ¬ EndsHeader line := by
  rw [EndsHeader, not_or, gt_iff_lt, Nat.cast_pos, List.length_pos_iff]

theorem mem_clearHead_iff (sock rest : Bytes) :
    ((), rest) ∈ clearHead sock ↔ ∃ lines, Header (SIZE - 1) sock lines rest := by
  rw [clearHead, mem_headerLoop_iff _ _ again_clearHead]
  simp

theorem mem_postHeader_iff (sock rest : Bytes) (contentLength : ℤ) :
    (contentLength, rest) ∈ postHeader sock ↔
      ∃ lines, Header (SIZE - 1) sock lines rest ∧
        contentLength = lines.foldl takeContentLength 0 := by
  rw [postHeader, mem_headerLoop_iff _ _ again_postHeader]

theorem mem_loop_getFileTurn_done {s : GetFileState} (h : ¬ (s.num > 0 ∧ s.buf ≠ [LF]))
    (rest : Bytes) : rest ∈ Computation.loop getFileTurn s ↔ rest = s.sock := by
  rw [Computation.mem_loop_iff, getFileTurn, if_neg h]
  simp [Computation.mem_pure_iff]

theorem mem_loop_getFileTurn_iff (sock rest : Bytes) :
    ∀ (num : ℤ) (buf : Bytes), num > 0 ∧ buf ≠ [LF] →
      (rest ∈ Computation.loop getFileTurn ⟨num, buf, sock⟩ ↔
        ∃ lines, Header (SIZE - 1) sock lines rest) := by
  induction hlen : sock.length using Nat.strong_induction_on generalizing sock with
  | _ k ih =>
    subst hlen
    intro num buf hturn
    rw [Computation.mem_loop_iff, getFileTurn, if_pos hturn]
    simp only [Computation.mem_map_iff, mem_getLine_SIZE, reduceCtorEq, and_false, exists_false,
      false_or, Sum.inr.injEq]
    constructor
    · rintro ⟨s', ⟨⟨line, sock'⟩, hread, rfl⟩, hloop⟩
      by_cases hend : EndsHeader line
      · rw [mem_loop_getFileTurn_done (not_not.mpr hend ∘ (again_getFile line).mp)] at hloop
        exact ⟨[line], hloop ▸ .last hread hend⟩
      · have hlt := length_lt_of_not_endsHeader SIZE_sub_one_pos hread hend
        obtain ⟨lines, hheader⟩ := (ih _ hlt sock' rfl _ _ ((again_getFile line).mpr hend)).mp hloop
        exact ⟨line :: lines, .next hread hend hheader⟩
    · rintro ⟨lines, hheader⟩
      cases hheader with
      | @last _ line _ hread hend =>
        refine ⟨_, ⟨(line, rest), hread, rfl⟩, ?_⟩
        rw [mem_loop_getFileTurn_done (not_not.mpr hend ∘ (again_getFile line).mp)]
      | @next _ line sock' _ lines hread hend htail =>
        have hlt := length_lt_of_not_endsHeader SIZE_sub_one_pos hread hend
        refine ⟨_, ⟨(line, sock'), hread, rfl⟩, ?_⟩
        exact (ih _ hlt sock' rfl _ _ ((again_getFile line).mpr hend)).mpr ⟨lines, htail⟩

/-- **The loop of `exec_get_file`** reads what `Header` says. -/
theorem mem_getFileHeader_iff (sock rest : Bytes) :
    ((), rest) ∈ getFileHeader sock ↔ ∃ lines, Header (SIZE - 1) sock lines rest := by
  rw [getFileHeader, Computation.mem_map_iff,
    ← mem_loop_getFileTurn_iff sock rest 1 [] ⟨by norm_num, by decide⟩]
  simp

/-! ## Streams on which the loops do not end -/

/-- What a header loop reads as one line and goes on: bytes that fill `buf`, or a
line, its end and the byte behind it. -/
def HeaderLine (n : ℕ) (l : Bytes) : Prop :=
  (l.length = n ∧ ∀ c ∈ l, Ordinary c) ∨
    ∃ w t d, l = w ++ [t, d] ∧ w ≠ [] ∧ w.length < n ∧ (∀ c ∈ w, Ordinary c) ∧ ¬ Ordinary t

/-- The stream breaks off inside a line behind any number of header lines. -/
inductive Stalls (n : ℕ) : Bytes → Prop
  | here {sock : Bytes} (h : Unfinished n sock) : Stalls n sock
  | later {l sock : Bytes} (hl : HeaderLine n l) (h : Stalls n sock) : Stalls n (l ++ sock)

theorem not_endsHeader_endLine {w : Bytes} (hne : w ≠ []) (hw : ∀ c ∈ w, Ordinary c)
    (c : UInt8) : ¬ EndsHeader (endLine w c) := by
  rw [endLine]
  split_ifs
  · rintro (h | h)
    · exact hne h
    · exact (hw LF (by simp [h])).2.1 rfl
  · exact not_endsHeader_append_LF hne

/-- A header line is read as one line that is not the end of the headers. -/
theorem readLine_headerLine {n : ℕ} (hn : 0 < n) {l : Bytes} (hl : HeaderLine n l)
    (sock : Bytes) :
    ∃ line, readLine n (l ++ sock) = some (line, sock) ∧ ¬ EndsHeader line := by
  rcases hl with ⟨rfl, hw⟩ | ⟨w, t, d, rfl, hne, hlen, hw, ht⟩
  · have hne : l ≠ [] := List.length_pos_iff.mp hn
    exact ⟨l ++ [LF], readLine_full hw hne sock, not_endsHeader_append_LF hne⟩
  · refine ⟨endLine w d, ?_, not_endsHeader_endLine hne hw d⟩
    rw [List.append_assoc]
    exact readLine_end hw hlen ht (d :: sock)

theorem not_header_of_stalls {n : ℕ} (hn : 0 < n) {sock : Bytes} (h : Stalls n sock) :
    ∀ lines rest, ¬ Header n sock lines rest := by
  induction h with
  | here h =>
    intro lines rest hheader
    have hnone := readLine_unfinished h
    cases hheader with
    | last hread _ => exact absurd (hnone.symm.trans hread) (by simp)
    | next hread _ _ => exact absurd (hnone.symm.trans hread) (by simp)
  | later hl _ ih =>
    intro lines rest hheader
    obtain ⟨line, hread, hend⟩ := readLine_headerLine hn hl _
    cases hheader with
    | last hread' hend' =>
      obtain ⟨rfl, rfl⟩ := readLine_unique hread hread'
      exact hend hend'
    | next hread' _ htail =>
      obtain ⟨rfl, rfl⟩ := readLine_unique hread hread'
      exact ih _ _ htail

/-- **The header loops end** unless the stream breaks off inside a line. -/
theorem exists_header_iff {n : ℕ} (hn : 0 < n) (sock : Bytes) :
    (∃ lines rest, Header n sock lines rest) ↔ ¬ Stalls n sock := by
  constructor
  · rintro ⟨lines, rest, hheader⟩ hstalls
    exact not_header_of_stalls hn hstalls lines rest hheader
  · induction hlen : sock.length using Nat.strong_induction_on generalizing sock with
    | _ k ih =>
      subst hlen
      intro hstalls
      -- a line that is read and goes on
      have hnext : ∀ l rest, sock = l ++ rest → HeaderLine n l → rest.length < sock.length →
          ∃ lines rest', Header n sock lines rest' := by
        intro l rest happ hl hlt
        obtain ⟨line, hread, hend⟩ := readLine_headerLine hn hl rest
        obtain ⟨lines, rest', hheader⟩ := ih _ hlt rest rfl
          (fun h => hstalls (happ ▸ Stalls.later hl h))
        exact ⟨line :: lines, rest', .next (happ ▸ hread) hend hheader⟩
      rcases stream_cases n sock with rfl | hun | ⟨w, rest, happ, hlen, hw⟩ |
        ⟨w, t, rest, happ, hlen, hw, ht⟩
      · exact ⟨[[]], [], .last (readLine_nil n) (Or.inl rfl)⟩
      · exact absurd (Stalls.here hun) hstalls
      · refine hnext w rest happ (Or.inl ⟨hlen, hw⟩) ?_
        rw [happ, List.length_append]
        omega
      · have hread := readLine_end hw hlen ht rest
        rw [← happ] at hread
        by_cases hend : EndsHeader (endLine w (rest.headD t))
        · exact ⟨_, _, .last hread hend⟩
        · have hne : w ≠ [] := by
            rintro rfl
            apply hend
            rw [endLine]
            split_ifs
            · exact Or.inl rfl
            · exact Or.inr rfl
          cases rest with
          | nil => exact ⟨_, _, .next hread hend (.last (readLine_nil n) (Or.inl rfl))⟩
          | cons d rest =>
            refine hnext (w ++ [t, d]) rest (by simp [happ])
              (Or.inr ⟨w, t, d, rfl, hne, hlen, hw, ht⟩) ?_
            rw [happ, List.length_append, List.length_cons, List.length_cons]
            omega

/-! ## Header blocks -/

/-- Header lines, each followed by CRLF. -/
def headerBlock (lines : List Bytes) : Bytes := (lines.map (· ++ [CR, LF])).flatten

theorem headerBlock_cons_append (l : Bytes) (lines : List Bytes) (sock : Bytes) :
    headerBlock (l :: lines) ++ sock = l ++ CR :: LF :: (headerBlock lines ++ sock) := by
  simp [headerBlock]

/-- A header line in a request: not empty, without CR, LF and `'\0'`. -/
def IsHeaderLine (l : Bytes) : Prop := l ≠ [] ∧ ∀ c ∈ l, Ordinary c

instance decidableIsHeaderLine (l : Bytes) : Decidable (IsHeaderLine l) :=
  @instDecidableAnd _ _ _ (List.decidableBAll Ordinary l)

theorem isHeaderLine_replicate {k : ℕ} {c : UInt8} (hk : 0 < k) (hc : Ordinary c) :
    IsHeaderLine (List.replicate k c) := by
  refine ⟨fun h => ?_, fun d hd => List.eq_of_mem_replicate hd ▸ hc⟩
  have := congrArg List.length h
  rw [List.length_replicate, List.length_nil] at this
  omega

theorem readLine_crlf {n : ℕ} {w : Bytes} (hw : ∀ c ∈ w, Ordinary c) (hlen : w.length < n)
    (sock : Bytes) : readLine n (w ++ CR :: LF :: sock) = some (w ++ [LF], sock) := by
  rw [readLine_end hw hlen (by decide), List.headD_cons, List.tail_cons, endLine,
    if_neg (by decide)]

theorem firstLine_requestLine {l : Bytes} (hl : ∀ c ∈ l, Ordinary c) (hlen : l.length < SIZE - 1)
    (rest : Bytes) : FirstLine (SIZE - 1) (l ++ CR :: LF :: rest) (l ++ [LF]) rest :=
  (readLine_eq_some_iff SIZE_sub_one_pos _ _ _).mp (readLine_crlf hl hlen rest)

theorem header_empty_line {n : ℕ} (hn : 0 < n) (rest : Bytes) :
    Header n (CR :: LF :: rest) [[LF]] rest :=
  .last (readLine_crlf (w := []) (by simp) hn rest) (Or.inr rfl)

/-- **Short header lines** are read one by one. -/
theorem header_block {n : ℕ} (hn : 0 < n) (lines : List Bytes) (rest : Bytes)
    (hlines : ∀ l ∈ lines, IsHeaderLine l ∧ l.length < n) :
    Header n (headerBlock lines ++ CR :: LF :: rest) (lines.map (· ++ [LF]) ++ [[LF]]) rest := by
  induction lines with
  | nil => exact header_empty_line hn rest
  | cons l lines ih =>
    obtain ⟨⟨⟨hne, hw⟩, hlen⟩, hlines⟩ := List.forall_mem_cons.mp hlines
    have hread := readLine_crlf hw hlen (headerBlock lines ++ CR :: LF :: rest)
    rw [headerBlock_cons_append]
    exact .next hread (not_endsHeader_append_LF hne) (ih hlines)

/-- One header line of any length: the loop goes on behind it, unless the line is
a multiple of `n` bytes long. -/
theorem header_line {n : ℕ} (hn : 0 < n) (l sock : Bytes) (hl : IsHeaderLine l) :
    (¬ n ∣ l.length → ∀ lines rest, Header n sock lines rest →
        ∃ lines', Header n (l ++ CR :: LF :: sock) lines' rest) ∧
      (n ∣ l.length → ∃ lines', Header n (l ++ CR :: LF :: sock) lines' sock) := by
  induction hlen : l.length using Nat.strong_induction_on generalizing l with
  | _ k ih =>
    subst hlen
    obtain ⟨hne, hw⟩ := hl
    rcases Nat.lt_or_ge l.length n with hlt | hge
    · have hread := readLine_crlf hw hlt sock
      have hend := not_endsHeader_append_LF hne
      refine ⟨fun _ lines rest hheader => ⟨_, .next hread hend hheader⟩, fun hdvd => ?_⟩
      have := Nat.le_of_dvd (List.length_pos_iff.mpr hne) hdvd
      omega
    · -- the first `n` bytes fill `buf`
      have hwt : ∀ c ∈ l.take n, Ordinary c := fun c hc => hw c (List.mem_of_mem_take hc)
      have htake : (l.take n).length = n := by rw [List.length_take, Nat.min_eq_left hge]
      have hdrop : (l.drop n).length = l.length - n := List.length_drop
      have happ : l ++ CR :: LF :: sock = l.take n ++ (l.drop n ++ CR :: LF :: sock) := by
        rw [← List.append_assoc, List.take_append_drop]
      obtain ⟨line, hread, hend⟩ := readLine_headerLine hn (Or.inl ⟨htake, hwt⟩)
        (l.drop n ++ CR :: LF :: sock)
      rw [happ]
      by_cases hnil : l.drop n = []
      · have hlen : l.length = n := by
          have := congrArg List.length hnil
          rw [hdrop, List.length_nil] at this
          omega
        rw [hnil] at hread ⊢
        exact ⟨fun h => absurd (hlen ▸ dvd_rfl) h,
          fun _ => ⟨_, .next hread hend (header_empty_line hn sock)⟩⟩
      · have hwd : ∀ c ∈ l.drop n, Ordinary c := fun c hc => hw c (List.mem_of_mem_drop hc)
        have hdvd : n ∣ l.length - n ↔ n ∣ l.length := by
          rw [Nat.dvd_sub_iff_left hge dvd_rfl]
        obtain ⟨ih₁, ih₂⟩ := ih (l.length - n) (by omega) (l.drop n) ⟨hnil, hwd⟩ hdrop
        rw [hdvd] at ih₁ ih₂
        refine ⟨fun h lines rest hheader => ?_, fun h => ?_⟩
        · obtain ⟨lines', hheader'⟩ := ih₁ h lines rest hheader
          exact ⟨_, .next hread hend hheader'⟩
        · obtain ⟨lines', hheader'⟩ := ih₂ h
          exact ⟨_, .next hread hend hheader'⟩

/-- Header lines of any length: the loops stop behind the first line whose length
is a multiple of `n`, or else behind the empty line. -/
theorem exists_header_block {n : ℕ} (hn : 0 < n) (lines : List Bytes) (rest : Bytes)
    (hlines : ∀ l ∈ lines, IsHeaderLine l) :
    ∃ read rest', Header n (headerBlock lines ++ CR :: LF :: rest) read rest' ∧
      (rest' = rest ↔ ∀ l ∈ lines, ¬ n ∣ l.length) := by
  induction lines with
  | nil => exact ⟨_, rest, header_empty_line hn rest, by simp⟩
  | cons l lines ih =>
    obtain ⟨hl, hlines⟩ := List.forall_mem_cons.mp hlines
    obtain ⟨hgoes, hstops⟩ := header_line hn l (headerBlock lines ++ CR :: LF :: rest) hl
    rw [headerBlock_cons_append]
    by_cases hdvd : n ∣ l.length
    · obtain ⟨read, hheader⟩ := hstops hdvd
      refine ⟨read, _, hheader, iff_of_false (fun h => ?_) (fun h => h l (by simp) hdvd)⟩
      have := congrArg List.length h
      rw [List.length_append, List.length_cons, List.length_cons] at this
      omega
    · obtain ⟨read, rest', hheader, hiff⟩ := ih hlines
      obtain ⟨read', hheader'⟩ := hgoes hdvd read rest' hheader
      refine ⟨read', rest', hheader', ?_⟩
      rw [hiff, List.forall_mem_cons]
      exact ⟨fun h => ⟨hdvd, h⟩, fun h => h.2⟩

/-- **Header framing.** On header lines of any length and an empty line, each of
the three loops stops with exactly the bytes behind the empty line unread if and
only if no header line is a multiple of `SIZE-1` bytes long: such a line fills
`buf` with its last byte, and its CRLF is then read as an empty line. -/
theorem header_loops_iff (lines : List Bytes) (rest : Bytes)
    (hlines : ∀ l ∈ lines, IsHeaderLine l) :
    (((), rest) ∈ clearHead (headerBlock lines ++ CR :: LF :: rest) ↔
        ∀ l ∈ lines, ¬ SIZE - 1 ∣ l.length) ∧
      (((), rest) ∈ getFileHeader (headerBlock lines ++ CR :: LF :: rest) ↔
        ∀ l ∈ lines, ¬ SIZE - 1 ∣ l.length) ∧
      ((∃ n, (n, rest) ∈ postHeader (headerBlock lines ++ CR :: LF :: rest)) ↔
        ∀ l ∈ lines, ¬ SIZE - 1 ∣ l.length) := by
  obtain ⟨read, rest', hheader, hiff⟩ := exists_header_block SIZE_sub_one_pos lines rest hlines
  have hread : (∃ read, Header (SIZE - 1) (headerBlock lines ++ CR :: LF :: rest) read rest) ↔
      ∀ l ∈ lines, ¬ SIZE - 1 ∣ l.length := by
    rw [← hiff]
    exact ⟨fun ⟨_, h⟩ => (hheader.unique h).2, fun h => ⟨read, h ▸ hheader⟩⟩
  refine ⟨(mem_clearHead_iff _ _).trans hread, (mem_getFileHeader_iff _ _).trans hread, ?_⟩
  rw [← hread]
  constructor
  · rintro ⟨n, hn⟩
    obtain ⟨read, h, -⟩ := (mem_postHeader_iff _ _ _).mp hn
    exact ⟨read, h⟩
  · rintro ⟨read, h⟩
    exact ⟨_, (mem_postHeader_iff _ _ _).mpr ⟨read, h, rfl⟩⟩

/-- Two header lines and the body `x`. -/
theorem header_loops_iff_example :
    ((), bytes "x") ∈ clearHead
      (headerBlock [bytes "Host: a", bytes "Accept: b"] ++ CR :: LF :: bytes "x") :=
  (header_loops_iff [bytes "Host: a", bytes "Accept: b"] (bytes "x")
    (by decide)).1.mpr (by decide)

/-- A header line of 1023 bytes ends the headers: the empty line is left unread. -/
theorem header_line_of_1023_bytes :
    ¬ ((), bytes "x") ∈ clearHead
      (headerBlock [List.replicate 1023 (ch 'a')] ++ CR :: LF :: bytes "x") := by
  obtain ⟨read, rest', hheader, hiff⟩ := exists_header_block SIZE_sub_one_pos
    [List.replicate 1023 (ch 'a')] (bytes "x")
    (List.forall_mem_singleton.mpr (isHeaderLine_replicate (by omega) (by decide)))
  rw [mem_clearHead_iff]
  rintro ⟨read', hheader'⟩
  refine hiff.mp (hheader.unique hheader').2 _ (List.mem_singleton_self _) ?_
  rw [List.length_replicate, SIZE]

end FacePerception.Server
