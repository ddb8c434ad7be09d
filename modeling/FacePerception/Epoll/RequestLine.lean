import FacePerception.Server.RequestLine

/-!
# The request line of the epoll server

Model of `get_comm`, `get_method`, `get_url` and `get_method_path_url`
(`server/server.h`, lines 72–125). They are copies of those of `server_http.h`, but
`get_method_path_url` returns on a method that is neither GET nor POST; in
`get_path_method_query` the branch of that test is empty, with a call in a comment.

Results:
* `getMethodPathUrl_eq`: what `get_method_path_url` leaves, against `get_path_method_query`.
* `parsersAgree_iff`: the request lines on which the two parsers agree.
-/

namespace FacePerception.Epoll

open CString
open FacePerception.Server (resourcePath getPathMethodQuery getPathMethodQuery_method word
  getComm_eq_word)

/-- `get_comm` (lines 72–85). -/
def getComm (buf : Bytes) : Bytes := Server.getComm buf

/-- `get_method` (lines 86–89). -/
def getMethod (buf : Bytes) : Bytes := getComm buf

/-- `get_url` (lines 90–93). -/
def getUrl (buf : Bytes) : Bytes := getComm buf

/-- What `get_method_path_url` leaves in the zero-filled arrays of its caller, and in
`cgi`. -/
structure Request where
  cgi : Bool
  path : Bytes
  method : Bytes
  url : Bytes
deriving DecidableEq

/-- `get_method_path_url` (lines 94–125), with `cgi` 0 before. -/
def getMethodPathUrl (buf : Bytes) : Request :=
  let method := getMethod buf
  let len := method.length
  let url := getUrl (buf.drop (len + 1))
  if ¬ strcaseEq method (bytes "GET") ∧ ¬ strcaseEq method (bytes "POST") then
    { cgi := false, path := [], method := method, url := url }
  else
    let cgi := decide (method = bytes "POST")
    if method = bytes "GET" then
      match url.dropWhile (· ≠ ch '?') with
      | [] => { cgi := cgi, path := resourcePath url, method := method, url := url }
      | _ :: _ =>
        let url := url.takeWhile (· ≠ ch '?')
        { cgi := true, path := resourcePath url, method := method, url := url }
    else { cgi := cgi, path := resourcePath url, method := method, url := url }

/-! ## Against the other parser -/

/-- The first word of the line is GET or POST, in any mixture of cases. -/
def Supported (line : Bytes) : Prop :=
  strcaseEq (word (cstr line)) (bytes "GET") = true ∨
    strcaseEq (word (cstr line)) (bytes "POST") = true

instance decidableSupported (line : Bytes) : Decidable (Supported line) :=
  inferInstanceAs (Decidable (_ ∨ _))

/-- The two parsers leave the same strings and the same flag, and no path for a method
that is not supported. -/
structure ParsersAgree (line : Bytes) : Prop where
  method : (getMethodPathUrl line).method = (getPathMethodQuery line).method
  url : (getMethodPathUrl line).url = (getPathMethodQuery line).url
  path : (getMethodPathUrl line).path = (getPathMethodQuery line).path
  cgi : (getMethodPathUrl line).cgi = (getPathMethodQuery line).cgi
  notFound : ¬ Supported line →
    (getMethodPathUrl line).path = [] ∧ (getPathMethodQuery line).path = []

theorem getComm_cstr (s : Bytes) : Server.getComm (cstr s) = Server.getComm s := by
  have htake : ∀ t : Bytes, (cstr t).takeWhile (fun c => c ≠ ch ' ' ∧ c ≠ NUL) =
      t.takeWhile fun c => c ≠ ch ' ' ∧ c ≠ NUL := by
    intro t
    rw [cstr, List.takeWhile_takeWhile]
    congr 1
    funext c
    simp
  rw [Server.getComm, Server.getComm]
  induction s with
  | nil => rfl
  | cons c s ih =>
    by_cases hspace : c = ch ' '
    · subst hspace
      have hcstr : cstr (ch ' ' :: s) = ch ' ' :: cstr s := rfl
      rw [hcstr, List.dropWhile_cons_of_pos (by simp), List.dropWhile_cons_of_pos (by simp)]
      exact ih
    · rw [List.dropWhile_cons_of_neg (by simpa using hspace), ← htake (c :: s)]
      by_cases hnul : c = NUL
      · subst hnul
        rfl
      · rw [cstr_cons hnul, List.dropWhile_cons_of_neg (by simpa using hspace)]

/-- The method is the first word of the string in `buf`. -/
theorem getMethod_eq_word (line : Bytes) : getMethod line = word (cstr line) := by
  rw [getMethod, getComm, ← getComm_cstr, getComm_eq_word (nul_notMem_cstr line)]

/-- **What `get_method_path_url` leaves**: what `get_path_method_query` does, as far as a
supported method is concerned. -/
theorem getMethodPathUrl_eq (line : Bytes) :
    getMethodPathUrl line =
      if Supported line then
        let r := getPathMethodQuery line
        { cgi := r.cgi, path := r.path, method := r.method, url := r.url }
      else
        { cgi := false, path := [], method := getMethod line,
          url := getUrl (line.drop ((getMethod line).length + 1)) } := by
  have hmethod : getMethod = Server.getMethod := rfl
  have hurl : getUrl = Server.getUrl := rfl
  have hsupported : Supported line ↔ ¬ (¬ strcaseEq (getMethod line) (bytes "GET") ∧
      ¬ strcaseEq (getMethod line) (bytes "POST")) := by
    rw [Supported, ← getMethod_eq_word, not_and_or, not_not, not_not]
  by_cases h : Supported line
  · rw [if_pos h, getMethodPathUrl, if_neg (hsupported.mp h), getPathMethodQuery, hmethod, hurl]
    dsimp only
    split_ifs
    · cases (Server.getUrl (line.drop ((Server.getMethod line).length + 1))).dropWhile
        (· ≠ ch '?') with
      | nil => rfl
      | cons _ _ => rfl
    · rfl
  · rw [if_neg h, getMethodPathUrl, if_pos (not_not.mp (hsupported.not.mp h))]

theorem resourcePath_ne_nil (url : Bytes) : resourcePath url ≠ [] := by
  rw [← List.length_pos_iff, Server.length_resourcePath]
  omega

/-- `get_path_method_query` makes a path for every method. -/
theorem getPathMethodQuery_path_ne_nil (line : Bytes) : (getPathMethodQuery line).path ≠ [] := by
  unfold getPathMethodQuery
  dsimp only
  split_ifs
  · split
    · exact resourcePath_ne_nil _
    · exact resourcePath_ne_nil _
  · exact resourcePath_ne_nil _

/-- **The two parsers agree on the request lines with a supported method, and on no
others.** -/
theorem parsersAgree_iff (line : Bytes) : ParsersAgree line ↔ Supported line := by
  constructor
  · intro hagree
    by_contra h
    exact getPathMethodQuery_path_ne_nil line (hagree.notFound h).2
  · intro h
    have heq := getMethodPathUrl_eq line
    rw [if_pos h] at heq
    constructor
    case notFound => exact fun hnot => absurd h hnot
    all_goals rw [heq]

/-- `PUT` leaves a path in the one parser and none in the other. -/
theorem not_parsersAgree_put :
    ¬ ParsersAgree (bytes "PUT /a HTTP/1.1" ++ [LF]) ∧
      (getMethodPathUrl (bytes "PUT /a HTTP/1.1" ++ [LF])).path = [] ∧
      (getPathMethodQuery (bytes "PUT /a HTTP/1.1" ++ [LF])).path = bytes "htdocs/a" := by
  refine ⟨fun h => absurd h.path (by decide), by decide, by decide⟩

end FacePerception.Epoll
