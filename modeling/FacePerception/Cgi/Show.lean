import FacePerception.Lib.Environ
import FacePerception.Server.Accept

/-!
# The environment of `show`

What the CGI program `show` looks up in its environment (`cgi_bin/show.cpp`, lines
36–66), and what the child of `exec_cgi` has put there (`server/server_http.h`, lines
475–498). The server writes `NAME:value`, which for `putenv` is a string without a
`'='`, or one whose name is all that precedes the first `'='` of the query; and it
writes other names than `show` reads.

* `exported_eq`: none of the names `show` reads are set or removed.
* `show_obtains_iff`: when `show` obtains the request all the same.
-/

namespace FacePerception.Cgi

open CString Environment Server

/-- What `main` of `show` takes from its environment. -/
inductive Request
  /-- `query_str`. -/
  | query (q : Bytes)
  /-- `content_len`. -/
  | content (n : ℤ)
  | error
deriving DecidableEq

/-- `main` up to its reads (lines 50–57): `method`, and what it goes on with; `none` where
`getenv` gives `NULL`, which `strcpy` and `atoi` cannot read. -/
def showMain (getenv : Environ) : Option (Bytes × Request) := do
  let method ← getenv (bytes "REQUEST_STRING")
  if strcaseEq method (bytes "GET") then
    let queryStr ← getenv (bytes "QUERY_STRING")
    some (method, .query queryStr)
  else if strcaseEq method (bytes "POST") then
    let contentLen ← getenv (bytes "CONTENT_LENGTH")
    some (method, .content (atoi contentLen))
  else some (method, .error)

/-- The environment the child of `exec_cgi` runs the program in, when the server runs
in `inherited`. -/
def exported (inherited : Environ) (method query : Bytes) (contentLength : ℤ) : Environ :=
  (execCgiChild method query contentLength).env.foldl putenv inherited

/-- A name without a `':'` is none of those the child is about. -/
theorem exported_eq (name : Bytes) (hname : ch ':' ∉ name) (inherited : Environ)
    (method query : Bytes) (contentLength : ℤ) :
    exported inherited method query contentLength name = inherited name := by
  have hne : ∀ {w : Bytes} (s : Bytes), ch '=' ∉ w → ch ':' ∈ w → name ≠ nameOf (w ++ s) := by
    intro w s hw hcolon h
    rw [nameOf_append hw] at h
    exact hname (h ▸ List.mem_append_left _ hcolon)
  have hmethod : name ≠ nameOf (methodEnv method) := hne _ (by decide) (by decide)
  have hquery : name ≠ nameOf (queryEnv query) := hne _ (by decide) (by decide)
  have hlen : name ≠ nameOf (contentLenEnv contentLength) := hne _ (by decide) (by decide)
  refine foldl_putenv_of_ne (fun s hs => ?_) inherited
  unfold execCgiChild at hs
  split_ifs at hs
  · rcases List.mem_cons.mp hs with rfl | hs
    · exact hmethod
    · exact List.mem_singleton.mp hs ▸ hquery
  · rcases List.mem_cons.mp hs with rfl | hs
    · exact hmethod
    · exact List.mem_singleton.mp hs ▸ hlen

/-- `show` sees what the server sees. -/
theorem showMain_exported (inherited : Environ) (method query : Bytes) (contentLength : ℤ) :
    showMain (exported inherited method query contentLength) = showMain inherited := by
  have hmethod := exported_eq (bytes "REQUEST_STRING") (by decide) inherited method query
    contentLength
  have hquery := exported_eq (bytes "QUERY_STRING") (by decide) inherited method query
    contentLength
  have hlen := exported_eq (bytes "CONTENT_LENGTH") (by decide) inherited method query
    contentLength
  simp only [showMain, hmethod, hquery, hlen]

theorem showMain_eq_query_iff (getenv : Environ) (q : Bytes) :
    showMain getenv = some (bytes "GET", .query q) ↔
      getenv (bytes "REQUEST_STRING") = some (bytes "GET") ∧
        getenv (bytes "QUERY_STRING") = some q := by
  have hsame : strcaseEq (bytes "GET") (bytes "GET") = true := by decide
  unfold showMain
  cases getenv (bytes "REQUEST_STRING") with
  | none => simp
  | some method =>
    simp only [Option.bind_eq_bind, Option.bind_some, Option.some.injEq]
    by_cases hget : strcaseEq method (bytes "GET") = true
    · rw [if_pos hget]
      cases getenv (bytes "QUERY_STRING") <;> simp
    · rw [if_neg hget]
      have hne : method ≠ bytes "GET" := by
        rintro rfl
        exact hget hsame
      split_ifs
      · cases getenv (bytes "CONTENT_LENGTH") <;> simp [hne]
      · simp [hne]

theorem showMain_eq_content_iff (getenv : Environ) (n : ℤ) :
    showMain getenv = some (bytes "POST", .content n) ↔
      getenv (bytes "REQUEST_STRING") = some (bytes "POST") ∧
        ∃ text, getenv (bytes "CONTENT_LENGTH") = some text ∧ atoi text = n := by
  have hsame : strcaseEq (bytes "POST") (bytes "POST") = true := by decide
  have hother : strcaseEq (bytes "POST") (bytes "GET") = false := by decide
  unfold showMain
  cases getenv (bytes "REQUEST_STRING") with
  | none => simp
  | some method =>
    simp only [Option.bind_eq_bind, Option.bind_some, Option.some.injEq]
    by_cases hpost : method = bytes "POST"
    · rw [hpost, hother, if_neg Bool.false_ne_true, if_pos hsame]
      cases getenv (bytes "CONTENT_LENGTH") <;> simp
    · split_ifs
      · cases getenv (bytes "QUERY_STRING") <;> simp [hpost]
      · cases getenv (bytes "CONTENT_LENGTH") <;> simp [hpost]
      · simp [hpost]

/-- **What `show` obtains.** Of a GET it obtains the method and the query, and of a POST
the method and the content length, exactly when the server itself runs in an environment
that already has them under the names `show` reads. -/
theorem show_obtains_iff (inherited : Environ) (query : Bytes) (n : ℕ) :
    (showMain (exported inherited (bytes "GET") query 0) = some (bytes "GET", .query query) ↔
        inherited (bytes "REQUEST_STRING") = some (bytes "GET") ∧
          inherited (bytes "QUERY_STRING") = some query) ∧
      (showMain (exported inherited (bytes "POST") query n) = some (bytes "POST", .content n) ↔
        inherited (bytes "REQUEST_STRING") = some (bytes "POST") ∧
          ∃ text, inherited (bytes "CONTENT_LENGTH") = some text ∧ atoi text = n) := by
  rw [showMain_exported, showMain_exported]
  exact ⟨showMain_eq_query_iff inherited query, showMain_eq_content_iff inherited n⟩

/-- A server that was started without any of these variables. -/
theorem show_misses_query :
    ¬ showMain (exported (fun _ => none) (bytes "GET") (bytes "name=ann&id=1") 0) =
      some (bytes "GET", .query (bytes "name=ann&id=1")) := by
  rw [showMain_exported]
  decide

end FacePerception.Cgi
