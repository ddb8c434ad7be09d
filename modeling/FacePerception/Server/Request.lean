import FacePerception.Server.GetLine

/-!
# The request line

Models of `get_comm` and `get_path_method_query` (`server/server_http.h`, lines
279–353), of the path `exec_get` makes of a directory (line 367) and of the
environment strings `exec_cgi` writes (lines 484–498).

A string in an array is the list of its bytes, of any length; `Fits` says when
every one of them, with its `'\0'`, has room in its array. Beyond the line `buf`
is zero-filled, so reading there gives `'\0'`.

Results:
* `fits_iff`: which request lines fit all the arrays.
-/

namespace FacePerception.Server

open CString

/-! ## `get_comm` -/

/-- `get_comm` (lines 279–293): the string it stores; its result is the length. -/
def getComm (buf : Bytes) : Bytes :=
  (buf.dropWhile (· = ch ' ')).takeWhile fun c => c ≠ ch ' ' ∧ c ≠ NUL

/-- The last index of `buf` that `get_comm` reads: `j` when it returns. -/
def getCommEnd (buf : Bytes) : ℕ :=
  (buf.takeWhile (· = ch ' ')).length + (getComm buf).length

/-- `get_method` (lines 294–297). -/
def getMethod (buf : Bytes) : Bytes := getComm buf

/-- `get_url` (lines 298–301). -/
def getUrl (buf : Bytes) : Bytes := getComm buf

/-- `get_treaty` (lines 302–305). -/
def getTreaty (buf : Bytes) : Bytes := getComm buf

/-! ## `get_path_method_query` -/

/-- What `get_path_method_query` leaves in the arrays of its caller; `url` is cut
at the `'?'` of a GET. -/
structure Request where
  cgi : Bool
  path : Bytes
  method : Bytes
  url : Bytes
  query : Bytes
  treaty : Bytes
deriving DecidableEq

/-- Lines 344–348: the path of a resource. -/
def resourcePath (url : Bytes) : Bytes :=
  let path := bytes "htdocs" ++ url
  if path.getLast? = some (ch '/') then path ++ bytes "index.html" else path

/-- `get_path_method_query` (lines 307–353). -/
def getPathMethodQuery (buf : Bytes) : Request :=
  let method := getMethod buf
  let len := method.length
  let url := getUrl (buf.drop (len + 1))
  let len := len + url.length
  let treaty := getTreaty (buf.drop (len + 1))
  let cgi := decide (method = bytes "POST")
  if method = bytes "GET" then
    match url.dropWhile (· ≠ ch '?') with
    | [] =>
      { cgi := cgi, path := resourcePath url, method := method, url := url, query := [],
        treaty := treaty }
    | _ :: cur =>
      let url := url.takeWhile (· ≠ ch '?')
      { cgi := true, path := resourcePath url, method := method, url := url, query := cur,
        treaty := treaty }
  else
    { cgi := cgi, path := resourcePath url, method := method, url := url, query := url,
      treaty := treaty }

example : getPathMethodQuery (bytes "GET /a/?name=ann HTTP/1.1" ++ [LF]) =
    { cgi := true, path := bytes "htdocs/a/index.html", method := bytes "GET",
      url := bytes "/a/", query := bytes "name=ann", treaty := bytes "HTTP/1.1" ++ [LF] } := by
  decide

/-- Line 367: the path of a directory's index. -/
def directoryPath (path : Bytes) : Bytes := path ++ bytes "/index.html"

/-- Line 484. -/
def methodEnv (method : Bytes) : Bytes := bytes "REQUEST_METHOD:" ++ method

/-- Line 490. -/
def queryEnv (query : Bytes) : Bytes := bytes "QUERY_STRING:" ++ query

/-- Line 495. -/
def contentLenEnv (contentLength : ℤ) : Bytes :=
  bytes "CONTENT-LENGTH:" ++
    if contentLength < 0 then ch '-' :: decimal contentLength.natAbs
    else decimal contentLength.toNat

/-! ## Room in the arrays -/

/-- Where `get_url` and `get_treaty` start reading. -/
def urlOffset (line : Bytes) : ℕ := (getMethod line).length + 1

def treatyOffset (line : Bytes) : ℕ :=
  (getMethod line).length + (getUrl (line.drop (urlOffset line))).length + 1

/-- Every string built from the request line fits its array together with its
`'\0'`, and `get_comm` reads inside `buf`. `isDir`: `stat` finds a directory. -/
structure Fits (line : Bytes) (isDir : Bool) : Prop where
  method : (getMethod line).length < METHOD_SIZE
  url : (getUrl (line.drop (urlOffset line))).length < URL_SIZE
  treaty : (getTreaty (line.drop (treatyOffset line))).length < TREATY_SIZE
  query : (getPathMethodQuery line).query.length < QUERY_SIZE
  path : (getPathMethodQuery line).path.length < PATH_SIZE
  directory : (getPathMethodQuery line).cgi = false → isDir = true →
    (directoryPath (getPathMethodQuery line).path).length < PATH_SIZE
  methodEnv : (getPathMethodQuery line).cgi = true →
    (methodEnv (getPathMethodQuery line).method).length < METHOD_SIZE
  queryEnv : (getPathMethodQuery line).cgi = true →
    (getPathMethodQuery line).method = bytes "GET" →
    (queryEnv (getPathMethodQuery line).query).length < QUERY_SIZE
  readMethod : getCommEnd line < SIZE
  readUrl : urlOffset line + getCommEnd (line.drop (urlOffset line)) < SIZE
  readTreaty : treatyOffset line + getCommEnd (line.drop (treatyOffset line)) < SIZE

/-! ## Which lines have room -/

/-- The first space-free word of a string. -/
def word (s : Bytes) : Bytes := (s.dropWhile (· = ch ' ')).takeWhile (· ≠ ch ' ')

/-- A space follows the first word. -/
def Spaced (s : Bytes) : Prop := (s.dropWhile (· = ch ' ')).dropWhile (· ≠ ch ' ') ≠ []

instance decidableSpaced (s : Bytes) : Decidable (Spaced s) := inferInstanceAs (Decidable (¬ _))

/-- The word `get_url` finds: the one behind as many bytes as the first word has
and one more. -/
def secondWord (line : Bytes) : Bytes := word (line.drop ((word line).length + 1))

/-- The word `get_treaty` finds. -/
def thirdWord (line : Bytes) : Bytes :=
  word (line.drop ((word line).length + (secondWord line).length + 1))

/-- The resource a request line asks for: for GET, up to the first `'?'`. -/
def resource (line : Bytes) : Bytes :=
  if word line = bytes "GET" then (secondWord line).takeWhile (· ≠ ch '?') else secondWord line

/-- The query of a request line: for GET, what follows the first `'?'`. -/
def queryWord (line : Bytes) : Bytes :=
  if word line = bytes "GET" then ((secondWord line).dropWhile (· ≠ ch '?')).tail
  else secondWord line

/-- A request line that leads to `exec_post`. -/
def IsCgi (line : Bytes) : Prop :=
  word line = bytes "POST" ∨ word line = bytes "GET" ∧ ch '?' ∈ secondWord line

instance decidableIsCgi (line : Bytes) : Decidable (IsCgi line) :=
  inferInstanceAs (Decidable (_ ∨ _))

/-- The words of the line are short enough for the arrays. -/
structure ShortWords (line : Bytes) (isDir : Bool) : Prop where
  first : (word line).length ≤ 254
  second : (secondWord line).length ≤ 511
  third : (thirdWord line).length ≤ 511
  query : word line = bytes "GET" → (secondWord line).length ≤ (resource line).length + 499
  path : (resource line).length + (if (resource line).getLast? = some (ch '/') then 10 else 0) +
    (if ¬ IsCgi line ∧ isDir = true then 11 else 0) ≤ 505
  spaced : line.length < SIZE ∨ Spaced line ∧ Spaced (line.drop ((word line).length + 1)) ∧
    Spaced (line.drop ((word line).length + (secondWord line).length + 1))

theorem getComm_eq_word {s : Bytes} (h : NUL ∉ s) : getComm s = word s := by
  have hdrop : NUL ∉ s.dropWhile (· = ch ' ') :=
    fun hmem => h ((List.dropWhile_suffix _).subset hmem)
  rw [getComm, word]
  generalize s.dropWhile (· = ch ' ') = p at hdrop
  induction p with
  | nil => rfl
  | cons c p ih =>
    rw [List.mem_cons, not_or] at hdrop
    simp only [List.takeWhile_cons, ih hdrop.2, ne_eq, eq_comm.mp.mt hdrop.1, not_false_iff,
      and_true]

theorem getLast?_htdocs (url : Bytes) :
    (bytes "htdocs" ++ url).getLast? = some (ch '/') ↔ url.getLast? = some (ch '/') := by
  rw [List.getLast?_append]
  cases url.getLast? with
  | none => decide
  | some c => simp

theorem length_resourcePath (url : Bytes) : (resourcePath url).length =
    6 + url.length + if url.getLast? = some (ch '/') then 10 else 0 := by
  have h6 : (bytes "htdocs").length = 6 := by decide
  have h10 : (bytes "index.html").length = 10 := by decide
  simp only [resourcePath, getLast?_htdocs]
  split_ifs
  · simp only [List.length_append, h6, h10]
  · simp only [List.length_append, h6]
    omega

theorem length_directoryPath (path : Bytes) : (directoryPath path).length = path.length + 11 := by
  have h11 : (bytes "/index.html").length = 11 := by decide
  rw [directoryPath, List.length_append, h11]

theorem length_methodEnv (method : Bytes) : (methodEnv method).length = method.length + 15 := by
  have h15 : (bytes "REQUEST_METHOD:").length = 15 := by decide
  rw [methodEnv, List.length_append, h15, Nat.add_comm]

theorem length_queryEnv (query : Bytes) : (queryEnv query).length = query.length + 13 := by
  have h13 : (bytes "QUERY_STRING:").length = 13 := by decide
  rw [queryEnv, List.length_append, h13, Nat.add_comm]

theorem getPathMethodQuery_method (line : Bytes) :
    (getPathMethodQuery line).method = getMethod line := by
  unfold getPathMethodQuery
  dsimp only
  split_ifs
  · split <;> rfl
  · rfl

theorem getUrl_eq_secondWord {line : Bytes} (h : NUL ∉ line) :
    getUrl (line.drop ((getMethod line).length + 1)) = secondWord line := by
  rw [getUrl, getMethod, getComm_eq_word h,
    getComm_eq_word fun hmem => h (List.mem_of_mem_drop hmem)]
  rfl

theorem dropWhile_question_eq_nil (url : Bytes) :
    url.dropWhile (· ≠ ch '?') = [] ↔ ch '?' ∉ url := by
  constructor
  · intro h hmem
    simpa using List.dropWhile_eq_nil_iff.mp h _ hmem
  · exact List.dropWhile_ne_of_notMem

/-- The fields of a request in terms of the words of a line without `'\0'`. -/
theorem getPathMethodQuery_eq {line : Bytes} (h : NUL ∉ line) :
    (getPathMethodQuery line).cgi = decide (IsCgi line) ∧
      (getPathMethodQuery line).path = resourcePath (resource line) ∧
      (getPathMethodQuery line).query = queryWord line := by
  have hmethod : getMethod line = word line := getComm_eq_word h
  have hurl := getUrl_eq_secondWord h
  rw [hmethod] at hurl
  simp only [getPathMethodQuery, hmethod, hurl, resource, queryWord]
  by_cases hget : word line = bytes "GET"
  · have hpost : word line ≠ bytes "POST" := by
      rw [hget]
      decide
    have happ := List.takeWhile_append_dropWhile (p := (· ≠ ch '?')) (l := secondWord line)
    simp only [if_pos hget]
    cases hdrop : (secondWord line).dropWhile (· ≠ ch '?') with
    | nil =>
      have hmark := (dropWhile_question_eq_nil _).mp hdrop
      rw [hdrop, List.append_nil] at happ
      exact ⟨by simp [IsCgi, hpost, hmark], by rw [happ], rfl⟩
    | cons c cur =>
      have hmark : ch '?' ∈ secondWord line := by
        by_contra hmark
        rw [(dropWhile_question_eq_nil _).mpr hmark] at hdrop
        cases hdrop
      exact ⟨by simp [IsCgi, hget, hmark], rfl, rfl⟩
  · simp only [if_neg hget]
    exact ⟨by simp [IsCgi, hget], trivial, trivial⟩

/-- The query is the second word, without the resource and the `'?'` for a GET. -/
theorem length_queryWord (line : Bytes) :
    (queryWord line).length ≤ (secondWord line).length ∧
      (word line = bytes "GET" → ch '?' ∈ secondWord line →
        (resource line).length + 1 + (queryWord line).length = (secondWord line).length) ∧
      (word line = bytes "GET" → ch '?' ∉ secondWord line →
        (resource line).length = (secondWord line).length) := by
  have happ := congrArg List.length
    (List.takeWhile_append_dropWhile (p := (· ≠ ch '?')) (l := secondWord line))
  rw [List.length_append] at happ
  by_cases hget : word line = bytes "GET"
  · have hres : resource line = (secondWord line).takeWhile (· ≠ ch '?') := if_pos hget
    have hquery : queryWord line = ((secondWord line).dropWhile (· ≠ ch '?')).tail := if_pos hget
    rw [hres, hquery, List.length_tail]
    refine ⟨by omega, fun _ hmark => ?_, fun _ hmark => ?_⟩
    · have hne := mt (dropWhile_question_eq_nil _).mp (not_not.mpr hmark)
      have := List.length_pos_iff.mpr hne
      omega
    · have hnil := congrArg List.length ((dropWhile_question_eq_nil _).mpr hmark)
      rw [List.length_nil] at hnil
      omega
  · have hquery : queryWord line = secondWord line := if_neg hget
    exact ⟨by rw [hquery], fun h => absurd h hget, fun h => absurd h hget⟩

theorem word_subset (s : Bytes) : word s ⊆ s := fun _ hmem =>
  (List.dropWhile_suffix _).subset ((List.takeWhile_prefix _).subset hmem)

theorem queryWord_subset (line : Bytes) : queryWord line ⊆ line := by
  have hword : secondWord line ⊆ line := fun _ hmem =>
    List.mem_of_mem_drop (word_subset _ hmem)
  intro c hmem
  rw [queryWord] at hmem
  split_ifs at hmem
  · exact hword ((List.dropWhile_suffix _).subset (List.mem_of_mem_tail hmem))
  · exact hword hmem

/-! ### What `get_comm` reads -/

theorem getCommEnd_eq {s : Bytes} (h : NUL ∉ s) :
    getCommEnd s + ((s.dropWhile (· = ch ' ')).dropWhile (· ≠ ch ' ')).length = s.length := by
  have hspaces := congrArg List.length
    (List.takeWhile_append_dropWhile (p := (· = ch ' ')) (l := s))
  have hword := congrArg List.length
    (List.takeWhile_append_dropWhile (p := (· ≠ ch ' ')) (l := s.dropWhile (· = ch ' ')))
  rw [List.length_append] at hspaces hword
  rw [getCommEnd, getComm_eq_word h, word]
  omega

/-- From an offset inside the line `get_comm` reads to the space behind the word,
or else to the `'\0'` behind the line. -/
theorem offset_getCommEnd {line : Bytes} (h : NUL ∉ line) {k : ℕ} (hk : k ≤ line.length) :
    k + getCommEnd (line.drop k) ≤ line.length ∧
      (k + getCommEnd (line.drop k) < line.length ↔ Spaced (line.drop k)) := by
  have heq := getCommEnd_eq (fun hmem => h (List.mem_of_mem_drop hmem) : NUL ∉ line.drop k)
  rw [List.length_drop] at heq
  refine ⟨by omega, ?_⟩
  rw [Spaced, ← List.length_pos_iff]
  omega

/-- The three offsets at which `get_comm` starts lie inside every line that fills
`buf`, as long as the words before them are short. -/
theorem reads_iff {line : Bytes} (h : Line (SIZE - 1) line)
    (hmethod : (getMethod line).length ≤ 254)
    (hurl : (getUrl (line.drop (urlOffset line))).length ≤ 511) :
    (getCommEnd line < SIZE ∧
        urlOffset line + getCommEnd (line.drop (urlOffset line)) < SIZE ∧
        treatyOffset line + getCommEnd (line.drop (treatyOffset line)) < SIZE) ↔
      line.length < SIZE ∨ Spaced line ∧ Spaced (line.drop (urlOffset line)) ∧
        Spaced (line.drop (treatyOffset line)) := by
  have hnul := h.nul_notMem
  have hlen : line.length ≤ 1024 := h.length_le
  have hSIZE : SIZE = 1024 := rfl
  have hurlOffset : urlOffset line ≤ 255 := by
    unfold urlOffset
    omega
  have htreatyOffset : treatyOffset line ≤ 766 := by
    unfold treatyOffset
    omega
  -- a scan that starts behind the line reads one byte
  have hread : ∀ k, k ≤ 766 → k + getCommEnd (line.drop k) ≤ max 766 line.length ∧
      (line.length = 1024 → (k + getCommEnd (line.drop k) < 1024 ↔ Spaced (line.drop k))) := by
    intro k hk
    rcases Nat.lt_or_ge line.length k with hlt | hge
    · have hend : getCommEnd (line.drop k) = 0 := by
        rw [List.drop_of_length_le hlt.le]
        rfl
      rw [hend]
      omega
    · obtain ⟨hle, hiff⟩ := offset_getCommEnd hnul hge
      exact ⟨by omega, fun heq => heq ▸ hiff⟩
  obtain ⟨hle₁, hiff₁⟩ := hread 0 (by omega)
  obtain ⟨hle₂, hiff₂⟩ := hread (urlOffset line) (by omega)
  obtain ⟨hle₃, hiff₃⟩ := hread (treatyOffset line) htreatyOffset
  rw [List.drop_zero, Nat.zero_add] at hle₁ hiff₁
  rw [hSIZE]
  rcases Nat.lt_or_eq_of_le hlen with hlt | heq
  · exact ⟨fun _ => Or.inl hlt, fun _ => by omega⟩
  · rw [hiff₁ heq, hiff₂ heq, hiff₃ heq, or_iff_right (by omega)]

/-- The strings of a request in terms of the words of its line. -/
structure MadeOfWords (line : Bytes) : Prop where
  method : getMethod line = word line
  url : getUrl (line.drop (urlOffset line)) = secondWord line
  treaty : getTreaty (line.drop (treatyOffset line)) = thirdWord line
  urlOffset : urlOffset line = (word line).length + 1
  treatyOffset : treatyOffset line = (word line).length + (secondWord line).length + 1
  isGet : (getPathMethodQuery line).method = word line
  cgi : (getPathMethodQuery line).cgi = true ↔ IsCgi line
  path : (getPathMethodQuery line).path.length = 6 + (resource line).length +
    if (resource line).getLast? = some (ch '/') then 10 else 0
  query : (getPathMethodQuery line).query.length ≤ (secondWord line).length
  queryMark : word line = bytes "GET" → ch '?' ∈ secondWord line →
    (resource line).length + 1 + (getPathMethodQuery line).query.length =
      (secondWord line).length
  noMark : word line = bytes "GET" → ch '?' ∉ secondWord line →
    (resource line).length = (secondWord line).length

theorem madeOfWords {line : Bytes} (h : NUL ∉ line) : MadeOfWords line := by
  have hmethod : getMethod line = word line := getComm_eq_word h
  have hurl : getUrl (line.drop (urlOffset line)) = secondWord line := getUrl_eq_secondWord h
  have htreaty : getTreaty (line.drop (treatyOffset line)) = thirdWord line := by
    rw [getTreaty, getComm_eq_word fun hmem => h (List.mem_of_mem_drop hmem), treatyOffset,
      hmethod, hurl]
    rfl
  obtain ⟨hcgi, hpath, hquery⟩ := getPathMethodQuery_eq h
  obtain ⟨hle, hmark, hnoMark⟩ := length_queryWord line
  exact {
    method := hmethod
    url := hurl
    treaty := htreaty
    urlOffset := by rw [urlOffset, hmethod]
    treatyOffset := by rw [treatyOffset, hmethod, hurl]
    isGet := by rw [getPathMethodQuery_method, hmethod]
    cgi := by rw [hcgi, decide_eq_true_eq]
    path := by rw [hpath, length_resourcePath]
    query := by rwa [hquery]
    queryMark := by rwa [hquery]
    noMark := hnoMark }

/-- The reads of a line that fills `buf`, in terms of its words. -/
theorem reads_iff_spaced {line : Bytes} (h : Line (SIZE - 1) line)
    (hfirst : (word line).length ≤ 254) (hsecond : (secondWord line).length ≤ 511) :
    (getCommEnd line < SIZE ∧
        urlOffset line + getCommEnd (line.drop (urlOffset line)) < SIZE ∧
        treatyOffset line + getCommEnd (line.drop (treatyOffset line)) < SIZE) ↔
      line.length < SIZE ∨ Spaced line ∧ Spaced (line.drop ((word line).length + 1)) ∧
        Spaced (line.drop ((word line).length + (secondWord line).length + 1)) := by
  have hwords := madeOfWords h.nul_notMem
  have hiff := reads_iff h (hwords.method ▸ hfirst) (hwords.url ▸ hsecond)
  rwa [← hwords.urlOffset, ← hwords.treatyOffset]

theorem shortWords_of_fits {line : Bytes} {isDir : Bool} (h : Line (SIZE - 1) line)
    (hfits : Fits line isDir) : ShortWords line isDir := by
  have hwords := madeOfWords h.nul_notMem
  have hm := hfits.method
  have hu := hfits.url
  have ht := hfits.treaty
  have hp := hfits.path
  rw [hwords.method, METHOD_SIZE] at hm
  rw [hwords.url, URL_SIZE] at hu
  rw [hwords.treaty, TREATY_SIZE] at ht
  rw [hwords.path, PATH_SIZE] at hp
  refine ⟨by omega, by omega, by omega, fun hget => ?_, ?_, ?_⟩
  · by_cases hmark : ch '?' ∈ secondWord line
    · have hcgi := hwords.cgi.mpr (Or.inr ⟨hget, hmark⟩)
      have hlen := hfits.queryEnv hcgi (hwords.isGet.trans hget)
      have hquery := hwords.queryMark hget hmark
      rw [length_queryEnv, QUERY_SIZE] at hlen
      omega
    · have := hwords.noMark hget hmark
      omega
  · by_cases hdir : ¬ IsCgi line ∧ isDir = true
    · have hcgi : (getPathMethodQuery line).cgi = false := by
        rw [← Bool.not_eq_true, hwords.cgi]
        exact hdir.1
      have hlen := hfits.directory hcgi hdir.2
      rw [length_directoryPath, hwords.path, PATH_SIZE] at hlen
      rw [if_pos hdir]
      omega
    · rw [if_neg hdir]
      omega
  · exact (reads_iff_spaced h (by omega) (by omega)).mp
      ⟨hfits.readMethod, hfits.readUrl, hfits.readTreaty⟩

theorem fits_of_shortWords {line : Bytes} {isDir : Bool} (h : Line (SIZE - 1) line)
    (hshort : ShortWords line isDir) : Fits line isDir := by
  have hwords := madeOfWords h.nul_notMem
  obtain ⟨hm, hu, ht, hq, hp, hs⟩ := hshort
  obtain ⟨hr₁, hr₂, hr₃⟩ := (reads_iff_spaced h hm hu).mpr hs
  refine ⟨?_, ?_, ?_, ?_, ?_, fun hcgi hdir => ?_, fun hcgi => ?_, fun hcgi hget => ?_,
    hr₁, hr₂, hr₃⟩
  · rw [hwords.method, METHOD_SIZE]
    omega
  · rw [hwords.url, URL_SIZE]
    omega
  · rw [hwords.treaty, TREATY_SIZE]
    omega
  · have := hwords.query
    rw [QUERY_SIZE]
    omega
  · rw [hwords.path, PATH_SIZE]
    omega
  · have hstatic : ¬ IsCgi line := by
      rw [← hwords.cgi, Bool.not_eq_true]
      exact hcgi
    rw [if_pos (show ¬ IsCgi line ∧ isDir = true from ⟨hstatic, hdir⟩)] at hp
    rw [length_directoryPath, hwords.path, PATH_SIZE]
    omega
  · rw [length_methodEnv, hwords.isGet, METHOD_SIZE]
    rcases hwords.cgi.mp hcgi with hpost | ⟨hget, -⟩
    · rw [hpost]
      decide
    · rw [hget]
      decide
  · rw [hwords.isGet] at hget
    have hne : bytes "GET" ≠ bytes "POST" := by decide
    have hmark : ch '?' ∈ secondWord line := by
      rcases hwords.cgi.mp hcgi with hpost | ⟨-, hmark⟩
      · exact absurd (hget.symm.trans hpost) hne
      · exact hmark
    have hquery := hwords.queryMark hget hmark
    have hlen := hq hget
    rw [length_queryEnv, QUERY_SIZE]
    omega

/-- **Which request lines fit the arrays.** A line that `get_line` can leave in
`buf` overflows none of the arrays exactly when its words are short enough; the
arrays for the URL and the path are smaller than the line may be. -/
theorem fits_iff (line : Bytes) (isDir : Bool) (h : Line (SIZE - 1) line) :
    Fits line isDir ↔ ShortWords line isDir :=
  ⟨shortWords_of_fits h, fits_of_shortWords h⟩

/-- The request line of a browser. -/
theorem fits_iff_example :
    Fits (bytes "GET /index.html HTTP/1.1" ++ [LF]) false ↔
      ShortWords (bytes "GET /index.html HTTP/1.1" ++ [LF]) false :=
  fits_iff _ _ ⟨bytes "GET /index.html HTTP/1.1", ordinary_of_all (by decide),
    Or.inr ⟨by decide, rfl⟩⟩

/-- A URL of 601 bytes is longer than `url` and `path`. -/
theorem not_fits_long_url :
    Line (SIZE - 1) (bytes "GET /" ++ List.replicate 600 (ch 'a') ++ bytes " HTTP/1.1" ++ [LF]) ∧
      ¬ Fits (bytes "GET /" ++ List.replicate 600 (ch 'a') ++ bytes " HTTP/1.1" ++ [LF]) false :=
  ⟨⟨bytes "GET /" ++ List.replicate 600 (ch 'a') ++ bytes " HTTP/1.1",
    ordinary_of_all (by decide +kernel), Or.inr ⟨by decide +kernel, rfl⟩⟩,
    fun h => absurd h.url (by decide +kernel)⟩

end FacePerception.Server
