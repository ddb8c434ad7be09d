import Mathlib.Data.List.DropRight
import FacePerception.Lib.Tokens
import FacePerception.Server.FormData

/-!
# The tokens of a request line, and the parts of its URL

`get_comm` (`server/server_http.h`, lines 279–293) skips the spaces before a token, but
its result is the length of the token alone. `get_path_method_query` (lines 317–324)
adds these lengths up to find where the next token starts, and comes too early when
spaces have been skipped.

Results:
* `secondWord_eq`, `thirdWord_eq`: what is found in place of the second and the third
  token.
* `tokenises_iff`: the request lines of which the three tokens are found.
* `getPathMethodQuery_splits`: the URL of a GET is split without loss.
-/

namespace FacePerception.Server

open CString
open List (FirstToken exists_firstToken tokensOn scan_eq_head)

/-! ## Tokens -/

/-- The maximal space-free tokens of a line. -/
def tokens (line : Bytes) : List Bytes := tokensOn (ch ' ') line

/-- The `k`-th of them, and the empty string if there are not so many. -/
def token (line : Bytes) (k : ℕ) : Bytes := (tokens line).getD k []

/-- How many spaces a string begins with. -/
def lead (s : Bytes) : ℕ := (s.takeWhile (· = ch ' ')).length

/-- How many spaces follow the first token. -/
def gap (line : Bytes) : ℕ := lead (line.drop (lead line + (token line 0).length))

/-- `get_path_method_query` finds the first three tokens. `url` is what it is before it
is cut at a `'?'`. -/
structure Tokenises (line : Bytes) : Prop where
  method : (getPathMethodQuery line).method = token line 0
  url : getUrl (line.drop (urlOffset line)) = token line 1
  treaty : (getPathMethodQuery line).treaty = token line 2

theorem getPathMethodQuery_treaty (line : Bytes) :
    (getPathMethodQuery line).treaty = getTreaty (line.drop (treatyOffset line)) := by
  unfold getPathMethodQuery
  dsimp only
  split_ifs
  · split <;> rfl
  · rfl

theorem getTreaty_eq_thirdWord {line : Bytes} (h : NUL ∉ line) :
    getTreaty (line.drop (treatyOffset line)) = thirdWord line := by
  have hmethod : getMethod line = word line := getComm_eq_word h
  have hurl := getUrl_eq_secondWord h
  rw [getTreaty, getComm_eq_word fun hmem => h (List.mem_of_mem_drop hmem), treatyOffset,
    urlOffset, hurl, hmethod]
  rfl

theorem tokenises_iff_words {line : Bytes} (h : NUL ∉ line) :
    Tokenises line ↔ secondWord line = token line 1 ∧ thirdWord line = token line 2 := by
  have hword : word line = token line 0 := by
    refine (scan_eq_head line).trans ?_
    rw [token, tokens, List.headD_eq_getD]
  have hmethod : (getPathMethodQuery line).method = word line := by
    rw [getPathMethodQuery_method]
    exact getComm_eq_word h
  have hurl : getUrl (line.drop (urlOffset line)) = secondWord line := getUrl_eq_secondWord h
  have htreaty : (getPathMethodQuery line).treaty = thirdWord line := by
    rw [getPathMethodQuery_treaty, getTreaty_eq_thirdWord h]
  constructor
  · intro ⟨_, hu, ht⟩
    exact ⟨hurl ▸ hu, htreaty ▸ ht⟩
  · intro ⟨hu, ht⟩
    exact ⟨hmethod.trans hword, hurl.trans hu, htreaty.trans ht⟩

/-! ## What is found -/

section Found

variable {line w rest v rest' : Bytes} {a b : ℕ}

theorem token_zero (h : FirstToken (ch ' ') line a w rest) : token line 0 = w := by
  rw [token, tokens]
  by_cases hw : w = []
  · subst hw
    rw [h.tokensOn_eq_nil]
    rfl
  · rw [h.tokensOn_eq hw]
    rfl

theorem token_succ (h : FirstToken (ch ' ') line a w rest) (hw : w ≠ []) (k : ℕ) :
    token line (k + 1) = token rest k := by
  rw [token, tokens, h.tokensOn_eq hw, List.getD_cons_succ]
  rfl

theorem token_of_nil (h : FirstToken (ch ' ') line a [] rest) (k : ℕ) : token line k = [] := by
  rw [token, tokens, h.tokensOn_eq_nil]
  rfl

theorem word_eq (h : FirstToken (ch ' ') line a w rest) : word line = w := by
  rw [← token_zero h, token, tokens, ← List.headD_eq_getD]
  exact scan_eq_head line

/-- What `get_comm` finds from position `p`. -/
theorem word_drop (h : FirstToken (ch ' ') line a w rest) (p : ℕ) :
    word (line.drop p) =
      if p < a + w.length then w.drop (p - a) else word (rest.drop (p - (a + w.length))) :=
  h.scan_drop p

theorem word_drop_of_nil (h : FirstToken (ch ' ') line a [] rest) (p : ℕ) :
    word (line.drop p) = [] := by
  rw [word_drop h, h.ends rfl, List.drop_nil, List.drop_nil]
  exact ite_self _

theorem lead_eq (h : FirstToken (ch ' ') line a w rest) : lead line = a := h.takeWhile_length

theorem gap_eq (h : FirstToken (ch ' ') line a w rest) : gap line = lead rest := by
  have hrest : line.drop (a + w.length) = rest := by
    rw [h.eq, ← List.drop_drop, List.drop_left' List.length_replicate, List.drop_left]
  rw [gap, lead_eq h, token_zero h, hrest]

/-- A token that is not the first has a space before it. -/
theorem lead_pos (h : FirstToken (ch ' ') line a w rest) (h' : FirstToken (ch ' ') rest b v rest')
    (hv : v ≠ []) : 0 < b := by
  by_contra hb
  obtain rfl : b = 0 := by omega
  obtain ⟨c, v, rfl⟩ := List.exists_cons_of_ne_nil hv
  have hc : c = ch ' ' := h.stops c (by rw [h'.eq]; rfl)
  exact h'.token (hc ▸ List.mem_cons_self)

/-- **In place of the second token** the end of the first one is found, when more than
one space comes before it. -/
theorem secondWord_eq (h : FirstToken (ch ' ') line a w rest)
    (h' : FirstToken (ch ' ') rest b v rest') :
    secondWord line = if a ≤ 1 then v else w.rtake (a - 1) := by
  rw [secondWord, word_eq h, word_drop h, List.rtake]
  split_ifs with hlt hle hle
  · omega
  · rw [show w.length - (a - 1) = w.length + 1 - a by omega]
  · by_cases hv : v = []
    · subst hv
      exact word_drop_of_nil h' _
    · have hb := lead_pos h h' hv
      have hvlen := List.length_pos_iff.mpr hv
      rw [word_drop h', if_pos (by omega), show w.length + 1 - (a + w.length) - b = 0 by omega,
        List.drop_zero]
  · omega

/-- **In place of the third token** the end of the second one is found, or of the first
one, unless one space in all comes before the second. -/
theorem thirdWord_eq (h : FirstToken (ch ' ') line a w rest)
    (h' : FirstToken (ch ' ') rest b v rest') (hv : v ≠ []) (hurl : secondWord line = v) :
    thirdWord line =
      if a + b = 1 then token rest' 0
      else if a ≤ v.length + 1 then v.rtake (a + b - 1) else w.rtake (a - 1 - v.length) := by
  have hb := lead_pos h h' hv
  have hvlen := List.length_pos_iff.mpr hv
  obtain ⟨c, u, rest₂, h''⟩ := exists_firstToken (ch ' ') rest'
  rw [thirdWord, word_eq h, hurl, word_drop h, List.rtake, List.rtake]
  split_ifs with hlt h1 hle h1 hle
  · omega
  · omega
  · rw [show w.length - (a - 1 - v.length) = w.length + v.length + 1 - a by omega]
  · rw [word_drop h', if_neg (by omega),
      show w.length + v.length + 1 - (a + w.length) - (b + v.length) = 0 by omega, List.drop_zero,
      word_eq h'', token_zero h'']
  · rw [word_drop h', if_pos (by omega),
      show w.length + v.length + 1 - (a + w.length) - b = v.length - (a + b - 1) by omega]
  · omega

end Found

/-! ## When the tokens are found -/

/-- At most one space before the first token; or the second token is, by chance, the
end of the first one. -/
def FindsUrl (line : Bytes) : Prop :=
  lead line ≤ 1 ∨ token line 1 = (token line 0).rtake (lead line - 1)

/-- No second token, or one space in all before it; or the third token is, by chance,
the end of one before it. -/
def FindsTreaty (line : Bytes) : Prop :=
  token line 1 = [] ∨ lead line + gap line = 1 ∨
    token line 2 =
      if lead line ≤ (token line 1).length + 1 then
        (token line 1).rtake (lead line + gap line - 1)
      else (token line 0).rtake (lead line - 1 - (token line 1).length)

/-- **The three tokens of a request line are found iff no space comes before the first
and one before the second**, up to tokens that are alike. -/
theorem tokenises_iff {line : Bytes} (hnul : NUL ∉ line) :
    Tokenises line ↔ FindsUrl line ∧ FindsTreaty line := by
  rw [tokenises_iff_words hnul, FindsUrl, FindsTreaty]
  obtain ⟨a, w, rest, h⟩ := exists_firstToken (ch ' ') line
  by_cases hw : w = []
  · -- a line of spaces
    subst hw
    rw [token_of_nil h, token_of_nil h, token_of_nil h, List.rtake_nil]
    exact iff_of_true ⟨word_drop_of_nil h _, word_drop_of_nil h _⟩
      ⟨Or.inr rfl, Or.inl rfl⟩
  · obtain ⟨b, v, rest', h'⟩ := exists_firstToken (ch ' ') rest
    rw [token_succ h hw, token_succ h hw, token_zero h, token_zero h', lead_eq h, gap_eq h,
      lead_eq h']
    have hsecond : secondWord line = v ↔ a ≤ 1 ∨ v = w.rtake (a - 1) := by
      rw [secondWord_eq h h']
      split_ifs with ha
      · simp only [ha, true_or]
      · simp only [ha, false_or]
        exact eq_comm
    rw [← hsecond]
    apply and_congr_right
    intro hurl
    by_cases hv : v = []
    · have hthird : thirdWord line = [] := by
        rw [thirdWord, hurl, hv, List.length_nil, Nat.add_zero]
        exact hurl.trans hv
      subst hv
      rw [hthird, token_of_nil h']
      exact iff_of_true rfl (Or.inl rfl)
    · rw [token_succ h' hv, thirdWord_eq h h' hv hurl]
      simp only [hv, false_or]
      by_cases h1 : a + b = 1
      · simp only [h1, if_true, true_or]
      · simp only [h1, false_or]
        exact eq_comm

/-- The request line of a browser, and one that begins with a space. -/
theorem tokenises_iff_example :
    (Tokenises (bytes "GET /a?n=1 HTTP/1.1" ++ [LF]) ↔
      FindsUrl (bytes "GET /a?n=1 HTTP/1.1" ++ [LF]) ∧
        FindsTreaty (bytes "GET /a?n=1 HTTP/1.1" ++ [LF])) ∧
    (Tokenises (bytes " GET /a") ↔ FindsUrl (bytes " GET /a") ∧ FindsTreaty (bytes " GET /a")) :=
  ⟨tokenises_iff (by decide), tokenises_iff (by decide)⟩

/-- Behind two spaces the URL is taken from the end of the method, and between the method
and the URL a second space puts the URL in the place of the treaty. -/
theorem not_tokenises_two_spaces :
    (Fits (bytes "  GET /a HTTP/1.1" ++ [LF]) false ∧
      ¬ Tokenises (bytes "  GET /a HTTP/1.1" ++ [LF])) ∧
    (Fits (bytes "GET  /a HTTP/1.1" ++ [LF]) false ∧
      ¬ Tokenises (bytes "GET  /a HTTP/1.1" ++ [LF])) := by
  refine ⟨⟨?_, fun h => absurd h.url (by decide)⟩, ⟨?_, fun h => absurd h.treaty (by decide)⟩⟩
  · constructor <;> decide
  · constructor <;> decide

/-! ## The parts of a URL -/

/-- The request that comes out of the URL `u`: its parts put together again are `u`, and the
path is that of the part before the `'?'`. -/
structure SplitsUrl (u : Bytes) (r : Request) : Prop where
  cgi : r.cgi = true ↔ ch '?' ∈ u
  split : ch '?' ∈ u → ch '?' ∉ r.url ∧ r.url ++ ch '?' :: r.query = u
  whole : ch '?' ∉ u → r.url = u ∧ r.query = []
  path : r.path = bytes "htdocs" ++ r.url ++
    if r.url.getLast? = some (ch '/') then bytes "index.html" else []

theorem getComm_append {w : Bytes} (hne : w ≠ []) (hspace : ch ' ' ∉ w) (hnul : NUL ∉ w)
    (rest : Bytes) : getComm (w ++ ch ' ' :: rest) = w := by
  have hall : ∀ c ∈ w, decide (c ≠ ch ' ' ∧ c ≠ NUL) = true := by
    intro c hc
    apply decide_eq_true
    exact ⟨fun h => hspace (h ▸ hc), fun h => hnul (h ▸ hc)⟩
  rw [getComm, List.dropWhile_eq_append hspace hne, List.takeWhile_append_of_pos hall,
    List.takeWhile_cons_of_neg (by simp), List.append_nil]

theorem resourcePath_eq (url : Bytes) :
    resourcePath url = bytes "htdocs" ++ url ++
      if url.getLast? = some (ch '/') then bytes "index.html" else [] := by
  simp only [resourcePath, getLast?_htdocs]
  split_ifs
  · rfl
  · rw [List.append_nil]

/-- **The URL of a GET is split without loss.** -/
theorem getPathMethodQuery_splits {u : Bytes} (hne : u ≠ []) (hspace : ch ' ' ∉ u)
    (hnul : NUL ∉ u) (t : Bytes) :
    SplitsUrl u (getPathMethodQuery (requestLine (bytes "GET") u t)) := by
  have hmethod : getMethod (requestLine (bytes "GET") u t) = bytes "GET" :=
    getComm_append (by decide) (by decide) (by decide) _
  have hurl : getUrl ((requestLine (bytes "GET") u t).drop ((bytes "GET").length + 1)) = u := by
    rw [requestLine, List.drop_append_cons]
    exact getComm_append hne hspace hnul t
  have hpost : bytes "GET" ≠ bytes "POST" := by decide
  have happ := List.takeWhile_append_dropWhile (p := (· ≠ ch '?')) (l := u)
  simp only [getPathMethodQuery, hmethod, hurl, if_true]
  cases hdrop : u.dropWhile (· ≠ ch '?') with
  | nil =>
    have hmark := (dropWhile_question_eq_nil u).mp hdrop
    exact ⟨by simp [hpost, hmark], fun h => absurd h hmark, fun _ => ⟨rfl, rfl⟩,
      resourcePath_eq u⟩
  | cons c cur =>
    have hmark : ch '?' ∈ u := by
      by_contra hmark
      rw [(dropWhile_question_eq_nil u).mpr hmark] at hdrop
      cases hdrop
    have hc : c = ch '?' := by
      have hhead := List.head?_dropWhile_not (· ≠ ch '?') u
      rw [hdrop] at hhead
      simpa using hhead
    refine ⟨by simp [hmark], fun _ => ⟨?_, ?_⟩, fun h => absurd hmark h, resourcePath_eq _⟩
    · intro hmem
      simpa using List.mem_takeWhile_imp hmem
    · rw [hdrop, hc] at happ
      exact happ

/-- A URL whose last byte is the `'?'`. -/
theorem getPathMethodQuery_splits_example :
    SplitsUrl (bytes "/cgi_bin/?")
      (getPathMethodQuery (requestLine (bytes "GET") (bytes "/cgi_bin/?") (bytes "HTTP/1.1"))) :=
  getPathMethodQuery_splits (by decide) (by decide) (by decide) _

end FacePerception.Server
