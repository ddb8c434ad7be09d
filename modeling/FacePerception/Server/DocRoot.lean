import FacePerception.Lib.LexPath
import FacePerception.Server.Request

/-!
# The document root

`get_path_method_query` writes the URL behind `"htdocs"` (`server/server_http.h`,
line 344) and looks at nothing in it but its last byte; `exec_get` adds
`"/index.html"` to a directory's path (line 367). Both paths go to the operating
system as they are, so this is about what they resolve to.

Results:
* `docRoot_iff`: the paths stay inside `htdocs` exactly when the resource is empty
  or begins with a slash and its components never climb above it.
-/

namespace FacePerception.Server

open CString LexPath

/-- What a path component does. -/
def pathKind (c : Bytes) : Kind :=
  if c = [] ∨ c = bytes "." then .stay else if c = bytes ".." then .up else .down

/-- The components of a path. -/
def components (path : Bytes) : List Bytes := path.splitOn (ch '/')

/-- `path` begins with the component `root`, and following it never climbs above
that. -/
def StaysInside (root path : Bytes) : Prop :=
  ∃ cs, components path = root :: cs ∧ (resolve pathKind [] cs).isSome

/-- The resource is empty, or it begins with a slash and no prefix of its
components goes up more often than down. -/
def NeverClimbs (url : Bytes) : Prop :=
  url = [] ∨ ∃ rest, url = ch '/' :: rest ∧ ∀ p, p <+: components rest → 0 ≤ depth pathKind p

/-- What does not begin with a slash becomes part of the name of the root. -/
theorem not_neverClimbs_cons {c : UInt8} (hc : c ≠ ch '/') (url : Bytes) :
    ¬ NeverClimbs (c :: url) := by
  rintro (h | ⟨rest, h, -⟩)
  · cases h
  · exact hc (List.cons.inj h).1

theorem components_append_slash (p q : Bytes) :
    components (p ++ ch '/' :: q) = components p ++ components q :=
  List.splitOn_append_cons_self p q

theorem components_of_notMem {p : Bytes} (h : ch '/' ∉ p) : components p = [p] :=
  List.splitOn_eq_singleton h

theorem resolve_components_iff (p : Bytes) :
    (resolve pathKind [] (components p)).isSome ↔
      ∀ q, q <+: components p → 0 ≤ depth pathKind q := by
  rw [isSome_resolve_iff]
  simp

/-- A path starts with its first component, and a slash follows if more do. -/
theorem eq_of_components_eq_cons {path root : Bytes} {cs : List Bytes}
    (h : components path = root :: cs) : path = root ∨ ∃ rest, path = root ++ ch '/' :: rest := by
  have hjoin : [ch '/'].intercalate (components path) = path := List.intercalate_splitOn (ch '/')
  rw [h] at hjoin
  cases cs with
  | nil => exact Or.inl (by simpa [List.intercalate] using hjoin.symm)
  | cons c cs =>
    refine Or.inr ⟨[ch '/'].intercalate (c :: cs), ?_⟩
    rw [← hjoin]
    simp [List.intercalate]

/-- What is pasted behind the root directory stays inside it iff it never climbs. -/
theorem staysInside_append_iff {root : Bytes} (hroot : ch '/' ∉ root) (url : Bytes) :
    StaysInside root (root ++ url) ↔ NeverClimbs url := by
  cases url with
  | nil =>
    have hcomp : components (root ++ []) = [root] := by
      rw [List.append_nil, components_of_notMem hroot]
    exact iff_of_true ⟨[], hcomp, rfl⟩ (Or.inl rfl)
  | cons c rest =>
    by_cases hc : c = ch '/'
    · subst hc
      have hcomp : components (root ++ ch '/' :: rest) = root :: components rest := by
        rw [components_append_slash, components_of_notMem hroot, List.singleton_append]
      simp only [StaysInside, hcomp, List.cons.injEq, true_and, exists_eq_left', NeverClimbs,
        reduceCtorEq, false_or, resolve_components_iff]
    · refine iff_of_false ?_ (not_neverClimbs_cons hc rest)
      rintro ⟨cs, hcomp, -⟩
      rcases eq_of_components_eq_cons hcomp with h | ⟨rest', h⟩
      · simp at h
      · rw [List.append_cancel_left_eq, List.cons.injEq] at h
        exact hc h.1

/-- Adding a component that does not go up changes nothing. -/
theorem neverClimbs_append_iff (url : Bytes) {c : Bytes} (hslash : ch '/' ∉ c)
    (hc : pathKind c ≠ .up) : NeverClimbs (url ++ ch '/' :: c) ↔ NeverClimbs url := by
  cases url with
  | nil =>
    refine iff_of_true (Or.inr ⟨c, rfl, ?_⟩) (Or.inl rfl)
    rw [← resolve_components_iff, components_of_notMem hslash]
    exact (isSome_resolve_append pathKind [] [] hc).mpr rfl
  | cons d rest =>
    by_cases hd : d = ch '/'
    · subst hd
      simp only [NeverClimbs, List.cons_append, reduceCtorEq, false_or, List.cons.injEq, true_and,
        exists_eq_left', ← resolve_components_iff, components_append_slash,
        components_of_notMem hslash, isSome_resolve_append pathKind _ _ hc]
    · exact iff_of_false (not_neverClimbs_cons hd _) (not_neverClimbs_cons hd rest)

theorem exists_resourcePath_eq (url : Bytes) :
    ∃ url', resourcePath url = bytes "htdocs" ++ url' ∧ (NeverClimbs url' ↔ NeverClimbs url) := by
  have hlast := getLast?_htdocs url
  rw [resourcePath]
  by_cases h : url.getLast? = some (ch '/')
  · obtain ⟨init, rfl⟩ := List.getLast?_eq_some_iff.mp h
    refine ⟨init ++ ch '/' :: bytes "index.html", ?_, ?_⟩
    · rw [if_pos (hlast.mpr h)]
      simp
    · rw [neverClimbs_append_iff init (by decide) (by decide),
        neverClimbs_append_iff init (c := []) (by decide) (by decide)]
  · exact ⟨url, if_neg (mt hlast.mp h), Iff.rfl⟩

/-- **Where the paths lead.** For every request line `get_line` can leave in `buf`,
the path given to `stat` or `execl` and the one `exec_get` makes of it for a
directory stay inside `htdocs` exactly when the resource is empty or begins with a
slash and never climbs above it. Nothing in the code checks that. -/
theorem docRoot_iff (line : Bytes) (h : Line (SIZE - 1) line) :
    (StaysInside (bytes "htdocs") (getPathMethodQuery line).path ↔
        NeverClimbs (resource line)) ∧
      (StaysInside (bytes "htdocs") (directoryPath (getPathMethodQuery line).path) ↔
        NeverClimbs (resource line)) := by
  obtain ⟨url, hurl, hclimbs⟩ := exists_resourcePath_eq (resource line)
  have hpath : (getPathMethodQuery line).path = bytes "htdocs" ++ url := by
    rw [(getPathMethodQuery_eq h.nul_notMem).2.1, hurl]
  have hdir : directoryPath (bytes "htdocs" ++ url) =
      bytes "htdocs" ++ (url ++ ch '/' :: bytes "index.html") := by
    rw [directoryPath, List.append_assoc]
    rfl
  have hroot : ch '/' ∉ bytes "htdocs" := by decide
  rw [hpath, hdir, staysInside_append_iff hroot, staysInside_append_iff hroot,
    neverClimbs_append_iff url (by decide) (by decide)]
  exact ⟨hclimbs, hclimbs⟩

/-- The path of a browser's first request. -/
theorem docRoot_iff_example :
    StaysInside (bytes "htdocs") (getPathMethodQuery (bytes "GET / HTTP/1.1" ++ [LF])).path ↔
      NeverClimbs (resource (bytes "GET / HTTP/1.1" ++ [LF])) :=
  (docRoot_iff _ ⟨bytes "GET / HTTP/1.1", ordinary_of_all (by decide), Or.inr ⟨by decide, rfl⟩⟩).1

/-- `GET /../x` leaves `htdocs`. -/
theorem not_staysInside_parent :
    Line (SIZE - 1) (bytes "GET /../x HTTP/1.1" ++ [LF]) ∧
      ¬ StaysInside (bytes "htdocs")
        (getPathMethodQuery (bytes "GET /../x HTTP/1.1" ++ [LF])).path := by
  refine ⟨⟨bytes "GET /../x HTTP/1.1", ordinary_of_all (by decide),
    Or.inr ⟨by decide, rfl⟩⟩, ?_⟩
  have hpath : components (getPathMethodQuery (bytes "GET /../x HTTP/1.1" ++ [LF])).path =
      [bytes "htdocs", bytes "..", bytes "x"] := by decide
  rintro ⟨cs, hcomp, hsome⟩
  rw [hpath, List.cons.injEq] at hcomp
  rw [← hcomp.2] at hsome
  exact absurd hsome (by decide)

end FacePerception.Server
