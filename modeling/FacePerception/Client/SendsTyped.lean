import FacePerception.Lib.Loop
import FacePerception.Client.GetStr

/-!
# The whole inner loop of the client

The inner loop of `main` (`client/client.cpp`, lines 33–51, with `get_str` of
`client/client.h`, lines 22–30; the code is that of `client_http.cpp` and
`client_http.h`), run until it is left. `get_str` overwrites the last byte of what `fgets`
has read, whether it is a newline or not. At the end of the input there is none: the
`'\0'` goes before the array, nothing is sent, and the loop goes on.

Results:
* `not_terminates_at_end`: at the end of the input the loop never stops.
* `sends_iff`: for which input the right bytes are sent.
* `not_sendsTyped`: for no input does the loop do all that it should.
-/

namespace FacePerception.Client

open CString
open FacePerception.Server (SIZE)
open Computation (corec exit_of_mem_corec not_terminates_corec)

/-! ## The loop -/

/-- What is left to read, what has been sent, and where `get_str` has put its `'\0'`. -/
structure Session where
  stdin : Bytes
  sent : Bytes
  nulAts : List ℤ
deriving DecidableEq

/-- One turn of the inner loop (lines 35–50). -/
def innerTurn (s : Session) : Session ⊕ Session :=
  let nulAts := s.nulAts ++ [(getStr (SIZE - 1) s.stdin).1.nulAt]
  match clientTurn s.stdin with
  | (.sent bs, stdin) => .inr ⟨stdin, s.sent ++ bs, nulAts⟩
  | (_, stdin) => .inl ⟨stdin, s.sent, nulAts⟩

/-- The inner loop. -/
def innerLoop (stdin : Bytes) : Computation Session := corec innerTurn ⟨stdin, [], []⟩

/-- What was typed, with `'\0'` for each newline. -/
def typedBytes (stdin : Bytes) : Bytes := stdin.map fun c => if c = LF then NUL else c

/-- The loop stops, it has written inside `buf` and has sent what was typed. -/
def SendsTyped (stdin : Bytes) : Prop :=
  ∃ s ∈ innerLoop stdin, (∀ i ∈ s.nulAts, 0 ≤ i ∧ i < SIZE) ∧ s.sent = typedBytes stdin

/-! ## One turn -/

theorem fgetsFrom_cons (room : ℕ) (c : UInt8) (stdin : Bytes) :
    fgetsFrom (room + 1) (c :: stdin) =
      if c = LF then ([c], stdin)
      else (c :: (fgetsFrom room stdin).1, (fgetsFrom room stdin).2) := rfl

theorem fgetsFrom_append (room : ℕ) (stdin : Bytes) :
    (fgetsFrom room stdin).1 ++ (fgetsFrom room stdin).2 = stdin := by
  induction room generalizing stdin with
  | zero => rfl
  | succ room ih =>
    cases stdin with
    | nil => rfl
    | cons c stdin =>
      rw [fgetsFrom_cons]
      split_ifs
      · rfl
      · rw [List.cons_append, ih]

theorem fgetsFrom_ne_nil {room : ℕ} {stdin : Bytes} (h : stdin ≠ []) :
    (fgetsFrom (room + 1) stdin).1 ≠ [] := by
  obtain ⟨c, stdin, rfl⟩ := List.exists_cons_of_ne_nil h
  rw [fgetsFrom_cons]
  split_ifs <;> exact List.cons_ne_nil _ _

theorem length_fgetsFrom_le (room : ℕ) (stdin : Bytes) :
    (fgetsFrom room stdin).1.length ≤ room := by
  induction room generalizing stdin with
  | zero => exact le_rfl
  | succ room ih =>
    cases stdin with
    | nil => exact Nat.zero_le _
    | cons c stdin =>
      rw [fgetsFrom_cons]
      split_ifs
      · exact Nat.succ_le_succ (Nat.zero_le _)
      · exact Nat.succ_le_succ (ih stdin)

/-- `fgets` stops behind the first newline. -/
theorem lf_notMem_fgetsFrom (room : ℕ) (stdin : Bytes) :
    LF ∉ (fgetsFrom room stdin).1.dropLast := by
  induction room generalizing stdin with
  | zero => exact List.not_mem_nil
  | succ room ih =>
    cases stdin with
    | nil => exact List.not_mem_nil
    | cons c stdin =>
      rw [fgetsFrom_cons]
      split_ifs with hc
      · exact List.not_mem_nil
      · by_cases hnil : (fgetsFrom room stdin).1 = []
        · rw [hnil]
          exact List.not_mem_nil
        · rw [List.dropLast_cons_of_ne_nil hnil, List.mem_cons, not_or]
          exact ⟨Ne.symm hc, ih stdin⟩

/-- A call of `get_str` reads `line`, and there is no more of it than fits and no newline
before its end. -/
structure Reads (stdin line rest : Bytes) : Prop where
  fgets_eq : fgets (SIZE - 1) stdin = (line, rest)
  append_eq : line ++ rest = stdin
  length_le : line.length ≤ SIZE - 2
  ne_nil : stdin ≠ [] → line ≠ []
  lf_notMem : LF ∉ line.dropLast

theorem exists_reads (stdin : Bytes) : ∃ line rest, Reads stdin line rest :=
  ⟨_, _, rfl, fgetsFrom_append _ _, length_fgetsFrom_le _ _, fun h => fgetsFrom_ne_nil h,
    lf_notMem_fgetsFrom _ _⟩

/-- What is in `buf` when `get_str` has read `line`. -/
def overwritten (line : Bytes) : Bytes :=
  if strlen line = 0 then line else line.set (strlen line - 1) NUL

/-- **One turn** in terms of what `fgets` reads; there is never too much of it. -/
theorem Reads.clientTurn_eq {stdin line rest : Bytes} (h : Reads stdin line rest) :
    clientTurn stdin =
      (if strncaseEq (overwritten line) (bytes "quit") 4 then .quit
        else .sent ((overwritten line).take (strlen line)), rest) := by
  have hlen : strlen line ≤ line.length := (List.takeWhile_prefix _).length_le
  have hshort := h.length_le
  have hfits : ¬ strlen line ≥ SIZE := by
    have hSIZE : SIZE = 1024 := rfl
    omega
  have hgetStr : getStr (SIZE - 1) stdin =
      (⟨overwritten line, strlen line, (strlen line : ℤ) - 1⟩, rest) := by
    rw [getStr, h.fgets_eq]
    rfl
  rw [clientTurn, hgetStr]
  simp only [if_neg hfits]
  split_ifs <;> rfl

/-- A turn sends no more bytes than it reads. -/
theorem length_of_clientTurn {stdin bs rest : Bytes} (h : clientTurn stdin = (.sent bs, rest)) :
    bs.length + rest.length ≤ stdin.length := by
  obtain ⟨line, rest', hreads⟩ := exists_reads stdin
  have hlen : strlen line ≤ line.length := (List.takeWhile_prefix _).length_le
  have happ := congrArg List.length hreads.append_eq
  rw [hreads.clientTurn_eq, Prod.mk.injEq] at h
  obtain ⟨hsent, rfl⟩ := h
  split_ifs at hsent
  have htake := congrArg List.length (Turn.sent.inj hsent)
  rw [List.length_take] at htake
  rw [List.length_append] at happ
  omega

/-- At the end of the input nothing is sent. -/
theorem clientTurn_end : clientTurn [] = (.sent [], []) := by decide

theorem innerTurn_end {s : Session} (h : s.stdin = []) :
    innerTurn s = .inr ⟨[], s.sent, s.nulAts ++ [-1]⟩ := by
  rw [innerTurn, h, clientTurn_end]
  simp only [List.append_nil]
  rfl

/-! ## The end of the loop -/

/-- **At the end of the input the loop never stops**: `get_str` writes before the array
again and again. -/
theorem not_terminates_at_end {s : Session} (h : s.stdin = []) :
    ¬ (corec innerTurn s).Terminates := by
  apply not_terminates_corec (fun s => s.stdin = []) _ h
  intro s hs
  exact ⟨_, innerTurn_end hs, rfl⟩

/-- A turn leaves the loop only with something left to read. -/
theorem ne_nil_of_exit {s r : Session} (h : innerTurn s = .inl r) :
    s.stdin ≠ [] ∧ r.sent = s.sent := by
  constructor
  · intro hnil
    rw [innerTurn_end hnil] at h
    exact absurd h (by simp)
  · rw [innerTurn] at h
    split at h
    · exact absurd h (by simp)
    · rw [← Sum.inl.inj h]

/-- **For no input does the loop stop after it has sent what was typed.** -/
theorem not_sendsTyped (stdin : Bytes) : ¬ SendsTyped stdin := by
  rintro ⟨r, hr, -, hsent⟩
  -- what has been sent is no longer than what has been read
  obtain ⟨s, hle, hexit⟩ := exit_of_mem_corec
    (fun s : Session => s.sent.length + s.stdin.length ≤ stdin.length) (by
      intro s s' hle hturn
      rw [innerTurn] at hturn
      split at hturn
      next bs rest hclient =>
        have hlen := length_of_clientTurn hclient
        rw [← Sum.inr.inj hturn]
        show (s.sent ++ bs).length + rest.length ≤ stdin.length
        rw [List.length_append]
        omega
      next => exact absurd hturn (by simp)) (by simp) hr
  obtain ⟨hne, hkept⟩ := ne_nil_of_exit hexit
  have hpos := List.length_pos_iff.mpr hne
  have htyped := congrArg List.length hsent
  rw [hkept, typedBytes, List.length_map] at htyped
  omega

/-- Behind one line the loop stays at the end of the input; and without its newline the line
loses its last byte. -/
theorem not_sendsTyped_one_line :
    ¬ SendsTyped (bytes "hi" ++ [LF]) ∧ clientSends 1 (bytes "hi") = bytes "h" ++ [NUL] := by
  refine ⟨?_, by decide +kernel⟩
  rintro ⟨r, hr, -⟩
  have hturn : innerTurn ⟨bytes "hi" ++ [LF], [], []⟩ = .inr ⟨[], bytes "hi" ++ [NUL], [2]⟩ := by
    decide +kernel
  rw [innerLoop, Computation.corec_turn hturn] at hr
  exact not_terminates_at_end rfl ⟨r, Computation.of_think_mem hr⟩

/-! ## The right bytes -/

/-- A turn that reads `l` and one byte more, which it overwrites. -/
theorem clientTurn_concat {stdin l rest : Bytes} {c : UInt8} (h : Reads stdin (l ++ [c]) rest)
    (hnul : NUL ∉ l ++ [c]) :
    clientTurn stdin = (if Quits l then .quit else .sent (l ++ [NUL]), rest) := by
  have hl : NUL ∉ l := fun hmem => hnul (List.mem_append_left _ hmem)
  have hlen : strlen (l ++ [c]) = (l ++ [NUL]).length := by
    rw [strlen, cstr_eq_self hnul, List.length_append, List.length_append, List.length_singleton,
      List.length_singleton]
  have hbuf : overwritten (l ++ [c]) = l ++ [NUL] := by
    rw [overwritten, hlen, List.length_append, List.length_singleton,
      if_neg (Nat.succ_ne_zero l.length), Nat.add_sub_cancel, List.set_append_right _ _ le_rfl,
      Nat.sub_self]
    rfl
  have hquits : strncaseEq (l ++ [NUL]) (bytes "quit") 4 = true ↔ Quits l := by
    rw [Quits, strncaseEq, strncaseEq, cstr_append_NUL hl, cstr_eq_self hl]
  rw [h.clientTurn_eq, hbuf, hlen, List.take_length]
  simp only [hquits]

theorem quits_of_begins {l : Bytes} (hnul : NUL ∉ l) (h : bytes "quit" <+: l) : Quits l := by
  obtain ⟨t, rfl⟩ := h
  rw [Quits, strncaseEq, cstr_eq_self hnul]
  have hquit : cstr (bytes "quit") = bytes "quit" := by decide
  have htake : (bytes "quit" ++ t).take 4 = (bytes "quit").take 4 := rfl
  rw [hquit, htake]
  exact decide_eq_true rfl

theorem typedBytes_append (s t : Bytes) : typedBytes (s ++ t) = typedBytes s ++ typedBytes t :=
  List.map_append

theorem typedBytes_of_lf_notMem {l : Bytes} (h : LF ∉ l) : typedBytes l = l :=
  List.map_ite_of_notMem h NUL

theorem typed_cons (l : Bytes) (ls : List Bytes) : typed (l :: ls) = l ++ [LF] ++ typed ls :=
  List.flatMap_cons

/-- Every line has come in one piece. -/
theorem exists_lines_of_clientSends (turns : ℕ) :
    ∀ {stdin : Bytes}, NUL ∉ stdin → clientSends turns stdin = typedBytes stdin →
      ∃ ls, stdin = typed ls ∧ ∀ l ∈ ls, TypedLine l ∧ ¬ Quits l := by
  induction turns with
  | zero =>
    intro stdin _ hsends
    exact ⟨[], List.map_eq_nil_iff.mp hsends.symm, by simp⟩
  | succ turns ih =>
    intro stdin hnul hsends
    by_cases hnil : stdin = []
    · exact ⟨[], hnil, by simp⟩
    · obtain ⟨line, rest, hreads⟩ := exists_reads stdin
      obtain ⟨l, c, rfl⟩ : ∃ l c, line = l ++ [c] :=
        ⟨_, _, (List.dropLast_append_getLast (hreads.ne_nil hnil)).symm⟩
      have hlf := hreads.lf_notMem
      rw [List.dropLast_concat] at hlf
      have hshort := hreads.length_le
      rw [List.length_append, List.length_singleton] at hshort
      have happ := hreads.append_eq
      rw [← happ, List.mem_append, not_or] at hnul
      have hnull : NUL ∉ l := fun hmem => hnul.1 (List.mem_append_left _ hmem)
      rw [clientSends, clientTurn_concat hreads hnul.1, ← happ, typedBytes_append,
        typedBytes_append, typedBytes_of_lf_notMem hlf] at hsends
      by_cases hquits : Quits l
      · rw [if_pos hquits] at hsends
        exact absurd hsends.symm (by simp [typedBytes])
      · rw [if_neg hquits] at hsends
        have hlen : (l ++ [NUL]).length = (l ++ typedBytes [c]).length := by
          simp [typedBytes]
        obtain ⟨hfirst, hrest⟩ := List.append_inj hsends hlen
        obtain rfl : c = LF := by
          by_contra hc
          rw [typedBytes_of_lf_notMem (by simpa using Ne.symm hc), List.append_cancel_left_eq,
            List.singleton_inj] at hfirst
          exact hnul.1 (by simp [hfirst])
        obtain ⟨ls, rfl, hls⟩ := ih hnul.2 hrest
        have hSIZE : SIZE = 1024 := rfl
        refine ⟨l :: ls, by rw [← happ, typed_cons], List.forall_mem_cons.mpr ⟨⟨?_, hquits⟩, hls⟩⟩
        exact ⟨hnull, hlf, by omega, fun hpre => hquits (quits_of_begins hnull hpre)⟩

theorem sent_eq_typedBytes {ls : List Bytes} (hls : ∀ l ∈ ls, TypedLine l ∧ ¬ Quits l) :
    sent ls = typedBytes (typed ls) := by
  induction ls with
  | nil => rfl
  | cons l ls ih =>
    obtain ⟨⟨hl, hquits⟩, hls⟩ := List.forall_mem_cons.mp hls
    rw [sent_cons hl, if_neg hquits, ih hls, typed_cons, typedBytes_append, typedBytes_append,
      typedBytes_of_lf_notMem hl.lf, List.append_assoc]
    rfl

/-- **The right bytes are sent iff** the input is made of lines with a newline each that
fit `buf` and do not quit. -/
theorem sends_iff {stdin : Bytes} (hnul : NUL ∉ stdin) :
    (∃ turns, clientSends turns stdin = typedBytes stdin) ↔
      ∃ ls, stdin = typed ls ∧ ∀ l ∈ ls, TypedLine l ∧ ¬ Quits l := by
  constructor
  · intro ⟨turns, hsends⟩
    exact exists_lines_of_clientSends turns hnul hsends
  · rintro ⟨ls, rfl, hls⟩
    exact ⟨ls.length, sent_eq_typedBytes hls⟩

end FacePerception.Client
