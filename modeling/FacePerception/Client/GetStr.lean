import Mathlib.Data.List.Forall2
import FacePerception.Server.Lines

/-!
# The client

Model of `get_str` (`client/client_http.h`, lines 4–12) and of the inner loop of the
client's `main` (`client/client_http.cpp`, lines 33–51). The client puts `'\0'` where the
newline of a typed line is and sends that byte too. `get_line` of the server takes a
`'\0'` for the end of a line and reads one byte more, the first of the next message.

Results:
* `sent_cons`: what is sent for typed lines.
* `Calls.read`: a call that returns a typed line has read two bytes more than that.
* `framed_iff`: when the server reads the lines that were typed.
-/

namespace FacePerception.Client

open CString
open FacePerception.Server (SIZE Ordinary Calls FirstLine getLines endLine readLine
  mem_getLines_iff calls_cons_iff calls_cons_iff_of_read readLine_eq_some_iff readLine_end
  readLine_nil SIZE_sub_one_pos)

/-! ## The loop -/

/-- What `fgets` stores in an array with room for `room` bytes and a `'\0'`, and what is
left to read. -/
def fgetsFrom : ℕ → Bytes → Bytes × Bytes
  | 0, stdin => ([], stdin)
  | _ + 1, [] => ([], [])
  | room + 1, c :: stdin =>
    if c = LF then ([c], stdin)
    else
      let (line, stdin) := fgetsFrom room stdin
      (c :: line, stdin)

/-- `fgets(buf,size,stdin)` on a zero-filled `buf`, which it leaves as it is at the end
of `stdin`. -/
def fgets (size : ℕ) (stdin : Bytes) : Bytes × Bytes := fgetsFrom (size - 1) stdin

/-- What `get_str` leaves: the array, its result, and the index of the last byte it
has stored. -/
structure Entry where
  buf : Bytes
  len : ℕ
  nulAt : ℤ

/-- `get_str` (lines 4–12), and what is left to read. With a length of 0 the `'\0'` goes
before the array. -/
def getStr (size : ℕ) (stdin : Bytes) : Entry × Bytes :=
  let (line, stdin) := fgets size stdin
  let len := strlen line
  (⟨if len = 0 then line else line.set (len - 1) NUL, len, (len : ℤ) - 1⟩, stdin)

/-- How a turn of the inner loop of `main` ends. -/
inductive Turn
  /-- `return -1` (line 43). -/
  | failed
  /-- `break` (line 48). -/
  | quit
  | sent (bs : Bytes)
deriving DecidableEq

/-- A turn of the inner loop (lines 35–50), and what is left to read. -/
def clientTurn (stdin : Bytes) : Turn × Bytes :=
  let (e, stdin) := getStr (SIZE - 1) stdin
  if e.len ≥ SIZE then (.failed, stdin)
  else if strncaseEq e.buf (bytes "quit") 4 then (.quit, stdin)
  else (.sent (e.buf.take e.len), stdin)

/-- What is sent in so many turns, if none of them leaves the loop before. Once the loop
is left, the second `connect` fails and nothing more is sent. -/
def clientSends : ℕ → Bytes → Bytes
  | 0, _ => []
  | turns + 1, stdin =>
    match clientTurn stdin with
    | (.sent bs, stdin) => bs ++ clientSends turns stdin
    | _ => []

/-! ## Typed lines -/

/-- A line a user can type, without its newline. -/
structure TypedLine (l : Bytes) : Prop where
  nul : NUL ∉ l
  lf : LF ∉ l
  short : l.length < SIZE - 2
  quit : ¬ bytes "quit" <+: l

/-- What is on `stdin` when these lines are typed. -/
def typed (ls : List Bytes) : Bytes := ls.flatMap (· ++ [LF])

/-- What the client sends for them. -/
def sent (ls : List Bytes) : Bytes := clientSends ls.length (typed ls)

/-- A line that makes the client leave its loop. -/
def Quits (l : Bytes) : Prop := strncaseEq l (bytes "quit") 4 = true

instance decidableQuits (l : Bytes) : Decidable (Quits l) := inferInstanceAs (Decidable (_ = true))

/-- The line as it was typed, up to a newline behind it. -/
def Matches (l line : Bytes) : Prop := line = l ∨ line = l ++ [LF]

/-- Successive calls of the server's `get_line` return the lines that were typed. -/
def Framed (ls : List Bytes) : Prop :=
  ∃ lines rest, (lines, rest) ∈ getLines SIZE ls.length (sent ls) ∧ List.Forall₂ Matches ls lines

theorem fgetsFrom_line {l : Bytes} (hl : LF ∉ l) {room : ℕ} (hroom : l.length < room)
    (rest : Bytes) : fgetsFrom room (l ++ LF :: rest) = (l ++ [LF], rest) := by
  induction l generalizing room with
  | nil =>
    obtain ⟨k, rfl⟩ : ∃ k, room = k + 1 := ⟨room - 1, by simp at hroom; omega⟩
    rw [List.nil_append, fgetsFrom, if_pos rfl, List.nil_append]
  | cons c l ih =>
    obtain ⟨hc, hl⟩ := not_or.mp (List.mem_cons.not.mp hl)
    rw [List.length_cons] at hroom
    obtain ⟨k, rfl⟩ : ∃ k, room = k + 1 := ⟨room - 1, by omega⟩
    rw [List.cons_append, fgetsFrom, if_neg (Ne.symm hc), ih hl (by omega), List.cons_append]

/-- `get_str` on a typed line. -/
theorem getStr_line {l : Bytes} (hl : TypedLine l) (rest : Bytes) :
    getStr (SIZE - 1) (l ++ LF :: rest) = (⟨l ++ [NUL], l.length + 1, l.length⟩, rest) := by
  have hSIZE : SIZE = 1024 := rfl
  have hshort := hl.short
  have hline : fgets (SIZE - 1) (l ++ LF :: rest) = (l ++ [LF], rest) :=
    fgetsFrom_line hl.lf (by omega) rest
  have hnul : NUL ∉ l ++ [LF] := by
    rw [List.mem_append, not_or]
    exact ⟨hl.nul, by decide⟩
  have hlen : strlen (l ++ [LF]) = l.length + 1 := by
    rw [strlen, cstr_eq_self hnul, List.length_append, List.length_singleton]
  have hset : (l ++ [LF]).set (l.length + 1 - 1) NUL = l ++ [NUL] := by
    rw [Nat.add_sub_cancel, List.set_append_right _ _ le_rfl, Nat.sub_self]
    rfl
  rw [getStr, hline]
  simp only [hlen, hset, Nat.add_eq_zero_iff, one_ne_zero, and_false, if_false,
    Nat.cast_add, Nat.cast_one, add_sub_cancel_right]

theorem clientTurn_line {l : Bytes} (hl : TypedLine l) (rest : Bytes) :
    clientTurn (l ++ LF :: rest) = (if Quits l then .quit else .sent (l ++ [NUL]), rest) := by
  have hshort := hl.short
  have hquits : strncaseEq (l ++ [NUL]) (bytes "quit") 4 = true ↔ Quits l := by
    rw [Quits, strncaseEq, strncaseEq, cstr_append_NUL hl.nul, cstr_eq_self hl.nul]
  have hlen : (l ++ [NUL]).length = l.length + 1 := by
    rw [List.length_append, List.length_singleton]
  rw [clientTurn, getStr_line hl]
  simp only [hquits, ← hlen, List.take_length]
  rw [if_neg (by omega)]
  split_ifs <;> rfl

/-- **Every typed line is sent with a `'\0'` behind it**, up to the first that quits. -/
theorem sent_cons {l : Bytes} (hl : TypedLine l) (ls : List Bytes) :
    sent (l :: ls) = if Quits l then [] else l ++ NUL :: sent ls := by
  have htyped : typed (l :: ls) = l ++ LF :: typed ls := by
    rw [typed, List.flatMap_cons, List.append_assoc]
    rfl
  rw [sent, List.length_cons, clientSends, htyped, clientTurn_line hl]
  by_cases h : Quits l
  · simp only [if_pos h]
  · simp only [if_neg h, List.append_assoc, List.singleton_append]
    rfl

/-! ## What a matching call has read -/

/-- What a line ends with does not matter for the line it matches. -/
theorem Matches.eq_word {l w line : Bytes} (h : Matches l line) (hw : ∀ c ∈ w, Ordinary c)
    (hl : LF ∉ l) (hline : line = w ∨ line = w ++ [LF]) : w = l := by
  have hlf : LF ∉ w := fun hmem => (hw LF hmem).2.1 rfl
  rcases h with rfl | rfl
  · rcases hline with rfl | rfl
    · rfl
    · exact absurd (List.mem_append_right _ (List.mem_singleton.mpr rfl)) hl
  · rcases hline with rfl | hline
    · exact absurd (List.mem_append_right _ (List.mem_singleton.mpr rfl)) hlf
    · exact (List.append_cancel_right hline).symm

/-- **A call that returns a typed line has read it and two bytes more**, if they were
there. -/
theorem read_of_matches {n : ℕ} (hn : 0 < n) {sock line rest l : Bytes}
    (hread : readLine n sock = some (line, rest)) (hl : LF ∉ l) (hlen : l.length < n)
    (h : Matches l line) :
    l <+: sock ∧ (∀ c ∈ l, Ordinary c) ∧ rest = sock.drop (l.length + 2) := by
  cases (readLine_eq_some_iff hn sock line rest).mp hread with
  | empty =>
    obtain rfl := h.eq_word (w := []) (by simp) hl (Or.inl rfl)
    exact ⟨List.prefix_rfl, by simp, rfl⟩
  | @full w hfull hw rest =>
    obtain rfl := h.eq_word hw hl (Or.inr rfl)
    omega
  | @ended w t hlt hw ht rest =>
    have hends : endLine w (rest.headD t) = w ∨ endLine w (rest.headD t) = w ++ [LF] := by
      rw [endLine]
      split_ifs
      · exact Or.inl rfl
      · exact Or.inr rfl
    obtain rfl := h.eq_word hw hl hends
    refine ⟨List.prefix_append _ _, hw, ?_⟩
    rw [← List.drop_drop, List.drop_left, List.drop_succ_cons, List.drop_one]

theorem Quits.ne_nil {l : Bytes} (h : Quits l) : l ≠ [] := by
  rintro rfl
  exact absurd h (by decide)

theorem sent_of_empty {ls : List Bytes} (hls : ∀ l ∈ ls, TypedLine l) (h : ∀ l ∈ ls, l = []) :
    sent ls = List.replicate ls.length NUL := by
  induction ls with
  | nil => rfl
  | cons l ls ih =>
    obtain ⟨hl, hls'⟩ := List.forall_mem_cons.mp hls
    obtain ⟨rfl, h'⟩ := List.forall_mem_cons.mp h
    rw [sent_cons hl, if_neg (by decide), ih hls' h', List.length_cons, List.replicate_succ,
      List.nil_append]

/-- A word without `'\0'` does not start `d` bytes behind its own start, when only `'\0'`
follow it. -/
theorem eq_nil_of_prefix_drop {l : Bytes} (hl : NUL ∉ l) {d k : ℕ} (hd : 0 < d)
    (h : l <+: (l ++ List.replicate k NUL).drop d) : l = [] := by
  by_contra hne
  have hlen := List.length_pos_iff.mpr hne
  have hlast := List.prefix_iff_getElem?.mp h (l.length - 1) (by omega)
  rw [List.getElem?_drop, List.getElem?_append_right (by omega), List.getElem?_replicate] at hlast
  split_ifs at hlast with hk
  rw [Option.some.injEq] at hlast
  exact hl (hlast ▸ List.getElem_mem _)

/-- From behind the start of what is sent for them, only empty lines are read as they
were typed. -/
theorem eq_nil_of_drop {ls lines : List Bytes} {rest : Bytes} {d : ℕ} (hd : 0 < d)
    (hls : ∀ l ∈ ls, TypedLine l) (hcalls : Calls (SIZE - 1) ((sent ls).drop d) lines rest)
    (h : List.Forall₂ Matches ls lines) : ∀ l ∈ ls, l = [] := by
  have hSIZE : SIZE = 1024 := rfl
  induction ls generalizing lines d with
  | nil => simp
  | cons l ls ih =>
    obtain ⟨hl, hls⟩ := List.forall_mem_cons.mp hls
    obtain ⟨line, lines, hmatch, htail, rfl⟩ := List.forall₂_cons_left_iff.mp h
    obtain ⟨sock, hread, hcalls⟩ := calls_cons_iff.mp hcalls
    have hshort := hl.short
    obtain ⟨hpre, -, rfl⟩ := read_of_matches SIZE_sub_one_pos hread hl.lf (by omega) hmatch
    rw [sent_cons hl] at hpre hcalls
    by_cases hquits : Quits l
    · rw [if_pos hquits, List.drop_nil] at hpre
      exact absurd (List.prefix_nil.mp hpre) hquits.ne_nil
    · rw [if_neg hquits] at hpre hcalls
      have hdrop : ((l ++ NUL :: sent ls).drop d).drop (l.length + 2) = (sent ls).drop (d + 1) := by
        rw [List.drop_drop, show d + (l.length + 2) = l.length + 1 + (d + 1) by omega,
          ← List.drop_drop, List.drop_append_cons]
      rw [hdrop] at hcalls
      have hnil := ih (Nat.succ_pos d) hls hcalls htail
      rw [sent_of_empty hls hnil, ← List.replicate_succ] at hpre
      exact List.forall_mem_cons.mpr ⟨eq_nil_of_prefix_drop hl.nul hd hpre, hnil⟩

/-- A word with nothing but `'\0'` behind it is read with the two of them next to it. -/
theorem readLine_nuls {n : ℕ} {w : Bytes} (hw : ∀ c ∈ w, Ordinary c) (hlen : w.length < n)
    (k : ℕ) : readLine n (w ++ NUL :: List.replicate k NUL) =
      some (w, List.replicate (k - 1) NUL) := by
  have hhead : (List.replicate k NUL).headD NUL = NUL := by
    cases k <;> rfl
  have hend : endLine w NUL = w := if_pos rfl
  rw [readLine_end hw hlen (by decide), hhead, List.tail_replicate, hend]

/-- Where only `'\0'` are left, every call returns an empty line. -/
theorem calls_nuls {n : ℕ} (hn : 0 < n) (k m : ℕ) :
    ∃ rest, Calls n (List.replicate m NUL) (List.replicate k []) rest := by
  induction k generalizing m with
  | zero => exact ⟨_, .nil _⟩
  | succ k ih =>
    have hread : readLine n (List.replicate m NUL) = some ([], List.replicate (m - 2) NUL) := by
      cases m with
      | zero => exact readLine_nil n
      | succ m => exact readLine_nuls (w := []) (by simp) hn m
    obtain ⟨rest, hcalls⟩ := ih (m - 2)
    exact ⟨rest, .cons hread hcalls⟩

theorem TypedLine.ordinary {l : Bytes} (hl : TypedLine l) (hcr : CR ∉ l) :
    ∀ c ∈ l, Ordinary c := by
  intro c hc
  refine ⟨?_, ?_, ?_⟩
  · rintro rfl
    exact hl.nul hc
  · rintro rfl
    exact hl.lf hc
  · rintro rfl
    exact hcr hc

/-! ## When the framing agrees -/

/-- At most the first line is not empty, it has no CR and does not quit in any mixture
of cases. -/
def OneLine : List Bytes → Prop
  | [] => True
  | l :: ls => CR ∉ l ∧ ¬ Quits l ∧ ∀ l' ∈ ls, l' = []

/-- **The server reads the lines that were typed iff only the first of them is not
empty.** -/
theorem framed_iff (ls : List Bytes) (hls : ∀ l ∈ ls, TypedLine l) : Framed ls ↔ OneLine ls := by
  have hSIZE : SIZE = 1024 := rfl
  cases ls with
  | nil => exact iff_of_true ⟨[], [], (mem_getLines_iff _ _ _ _ _).mpr ⟨rfl, .nil _⟩, .nil⟩ trivial
  | cons l ls =>
    obtain ⟨hl, hls⟩ := List.forall_mem_cons.mp hls
    have hshort := hl.short
    constructor
    · intro ⟨lines, rest, hmem, hmatches⟩
      obtain ⟨-, hcalls⟩ := (mem_getLines_iff _ _ _ _ _).mp hmem
      obtain ⟨line, lines, hmatch, htail, rfl⟩ := List.forall₂_cons_left_iff.mp hmatches
      obtain ⟨sock, hread, hcalls⟩ := calls_cons_iff.mp hcalls
      obtain ⟨hpre, hord, rfl⟩ :=
        read_of_matches SIZE_sub_one_pos hread hl.lf (by omega) hmatch
      rw [sent_cons hl] at hpre hcalls
      by_cases hquits : Quits l
      · rw [if_pos hquits] at hpre
        exact absurd (List.prefix_nil.mp hpre) hquits.ne_nil
      · have hdrop : (l ++ NUL :: sent ls).drop (l.length + 2) = (sent ls).drop 1 := by
          rw [← List.drop_drop, List.drop_left, List.drop_succ_cons]
        rw [if_neg hquits, hdrop] at hcalls
        exact ⟨fun hcr => (hord CR hcr).2.2 rfl, hquits,
          eq_nil_of_drop Nat.one_pos hls hcalls htail⟩
    · intro ⟨hcr, hquits, hnil⟩
      obtain ⟨rest, hcalls⟩ := calls_nuls SIZE_sub_one_pos ls.length (ls.length - 1)
      have hread : readLine (SIZE - 1) (sent (l :: ls)) =
          some (l, List.replicate (ls.length - 1) NUL) := by
        rw [sent_cons hl, if_neg hquits, sent_of_empty hls hnil]
        exact readLine_nuls (hl.ordinary hcr) (by omega) ls.length
      refine ⟨l :: List.replicate ls.length [], rest, (mem_getLines_iff _ _ _ _ _).mpr
        ⟨by rw [List.length_cons, List.length_replicate, List.length_cons], .cons hread hcalls⟩,
        .cons (Or.inl rfl) ?_⟩
      rw [List.eq_replicate_of_mem hnil, List.length_replicate]
      exact List.forall₂_same.mpr fun _ _ => Or.inl rfl

theorem typedLine_short : ∀ l ∈ [bytes "ann", bytes "7"], TypedLine l := by
  intro l hl
  rcases List.mem_cons.mp hl with rfl | hl
  · exact ⟨by decide, by decide, by decide, by decide⟩
  · rw [List.mem_singleton.mp hl]
    exact ⟨by decide, by decide, by decide, by decide⟩

/-- A name, and then a number. -/
theorem framed_iff_example :
    Framed [bytes "ann", bytes "7"] ↔ OneLine [bytes "ann", bytes "7"] :=
  framed_iff _ typedLine_short

/-- The number loses its first byte, which is all of it. -/
theorem not_framed_two_lines :
    (∀ l ∈ [bytes "ann", bytes "7"], TypedLine l) ∧ ¬ Framed [bytes "ann", bytes "7"] := by
  refine ⟨typedLine_short, ?_⟩
  intro ⟨lines, rest, hmem, hmatches⟩
  obtain ⟨-, hcalls⟩ := (mem_getLines_iff _ _ _ _ _).mp hmem
  obtain ⟨line, lines, -, htail, rfl⟩ := List.forall₂_cons_left_iff.mp hmatches
  obtain ⟨line', lines, hmatch, -, rfl⟩ := List.forall₂_cons_left_iff.mp htail
  have hfirst : readLine (SIZE - 1) (sent [bytes "ann", bytes "7"]) =
      some (bytes "ann" ++ [LF], [NUL]) := by decide +kernel
  have hsecond : readLine (SIZE - 1) [NUL] = some ([], []) := by decide +kernel
  have hcalls := ((calls_cons_iff_of_read hfirst).mp hcalls).2
  rw [((calls_cons_iff_of_read hsecond).mp hcalls).1] at hmatch
  exact hmatch.elim (by decide) (by decide)

end FacePerception.Client
