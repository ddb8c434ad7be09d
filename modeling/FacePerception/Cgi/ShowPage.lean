import FacePerception.Cgi.RecvStr
import FacePerception.Cgi.Show

/-!
# The page of `show`

Models of `recv_str` with what it prints, and of `main` of `show` behind its reads of the
environment (`cgi_bin/show.cpp`, lines 10–72). `strcpy` and the loop that reads the body
store as many bytes as the client says. To print a `char*` that is `NULL` sets `badbit`,
and with `badbit` nothing more is printed.

Results:
* `pointers_recvLoop`: when `recv_str` has set both pointers.
* `complete_iff`: when the whole page comes out, with all stores inside the arrays.
-/

namespace FacePerception.Cgi

open CString Environment

def SIZE : ℕ := 1024

/-! ## `cout` -/

/-- What has been printed, and `badbit`. -/
structure Out where
  text : Bytes
  bad : Bool
deriving DecidableEq

/-- `cout<<s`. -/
def Out.put (o : Out) (s : Bytes) : Out := if o.bad then o else { o with text := o.text ++ s }

/-- `cout<<s<<endl`. -/
def Out.putLine (o : Out) (s : Bytes) : Out := (o.put s).put [LF]

/-- `cout<<p` for a `char*`; `none` is `NULL`. -/
def Out.putPtr (o : Out) : Option Bytes → Out
  | some s => o.put s
  | none => { o with bad := true }

/-! ## The program -/

/-- What a pointer into `str` points to. -/
def pointed (str : Bytes) (p : Option ℕ) : Option Bytes := p.map fun p => cstr (str.drop p)

/-- What `recv_str` prints (lines 33–34). -/
def printPointers (s : Scanned) (o : Out) : Out :=
  let o := ((o.put (bytes "<p> name is :%s </p>")).putPtr (pointed s.str s.name)).put [LF]
  ((o.put (bytes "<p> id   is :%s </p>")).putPtr (pointed s.str s.id)).put [LF]

/-- The indices at which `recv_str` stores a `'\0'` (line 25), with `cur` at the rest of
the string. -/
def cutStores : Option ℕ → ℕ → Bytes → List ℕ
  | _, _, [] => []
  | name, cur, c :: rest =>
    if c = NUL then []
    else if c = ch '=' ∧ name = none then cutStores (some (cur + 1)) (cur + 1) rest
    else if c = ch '&' then cur :: cutStores name (cur + 1) rest
    else if c = ch '=' ∧ name ≠ none then []
    else cutStores name (cur + 1) rest

/-- What a run of `main` has printed, which bytes of its two arrays it has written, and the
pointers `recv_str` prints. -/
structure Run where
  out : Out
  queryStores : List ℕ
  dataStores : List ℕ
  pointers : List (Option ℕ)

/-- Lines 48–50. -/
def pageHead : Out :=
  ((Out.mk [] false).putLine (bytes "<html>")).putLine (bytes "<head> come on show world </head>")
    |>.putLine (bytes "<body>")

/-- Lines 68–69. -/
def pageEnd (o : Out) : Out := (o.putLine (bytes "</body>")).putLine (bytes "</html>")

/-- Lines 52–69 of `main`: `strcpy` into `query_str`, or `read` into `data_str` one byte at
a time and a `'\0'` behind them. At the end of `stdin` `read` stores nothing. -/
def showRun (stdin : Bytes) : Request → Run
  | .query q =>
    let str := cstr q
    let s := recvStr str
    { out := pageEnd (printPointers s pageHead),
      queryStores := List.range (str.length + 1) ++ cutStores none 0 str,
      dataStores := [], pointers := [s.name, s.id] }
  | .content n =>
    let str := stdin.take n.toNat
    let s := recvStr str
    { out := pageEnd (printPointers s pageHead), queryStores := [],
      dataStores := List.range str.length ++ [n.toNat] ++ cutStores none 0 str,
      pointers := [s.name, s.id] }
  | .error =>
    { out := pageEnd (pageHead.putLine (bytes "error")), queryStores := [], dataStores := [],
      pointers := [] }

/-- `main`; `none` where `getenv` gives `NULL`. -/
def showPage (getenv : Environ) (stdin : Bytes) : Option Run :=
  (showMain getenv).map fun r => showRun stdin r.2

/-! ## The whole page -/

/-- All stores are inside the arrays, the pointers are not `NULL`, and the page is closed. -/
structure Complete (run : Run) : Prop where
  query : ∀ i ∈ run.queryStores, i < SIZE
  data : ∀ i ∈ run.dataStores, i < SIZE
  pointers : none ∉ run.pointers
  closed : bytes "</body>" ++ [LF] ++ bytes "</html>" ++ [LF] <:+ run.out.text

/-- What the client has sent fits the array and has two `'='`. -/
def TwoFields (stdin : Bytes) : Request → Prop
  | .query q => (cstr q).length < SIZE ∧ 2 ≤ (cstr q).count (ch '=')
  | .content n => n < SIZE ∧ 2 ≤ (cstr (stdin.take n.toNat)).count (ch '=')
  | .error => True

/-! ### The output -/

theorem put_of_good {o : Out} (h : o.bad = false) (s : Bytes) :
    o.put s = ⟨o.text ++ s, false⟩ := by
  rw [Out.put, h]
  rfl

theorem closed_pageEnd {o : Out} (h : o.bad = false) :
    bytes "</body>" ++ [LF] ++ bytes "</html>" ++ [LF] <:+ (pageEnd o).text := by
  have hend : (pageEnd o).text =
      o.text ++ (bytes "</body>" ++ [LF] ++ bytes "</html>" ++ [LF]) := by
    simp [pageEnd, Out.putLine, put_of_good, h]
  rw [hend]
  exact List.suffix_append _ _

theorem bad_pageHead : pageHead.bad = false := by decide

/-- With both pointers set `cout` stays good. -/
theorem bad_printPointers {s : Scanned} {o : Out} (h : o.bad = false) (hname : s.name ≠ none)
    (hid : s.id ≠ none) : (printPointers s o).bad = false := by
  obtain ⟨p, hp⟩ := Option.ne_none_iff_exists'.mp hname
  obtain ⟨p', hp'⟩ := Option.ne_none_iff_exists'.mp hid
  simp [printPointers, pointed, hp, hp', Out.putPtr, put_of_good, h]

/-! ### The pointers -/

/-- **When both pointers are set**: for the `'='` at which `name` is set, and one more. -/
theorem pointers_recvLoop (s : Bytes) : ∀ (name : Option ℕ) (seen : Bytes),
    (recvLoop name seen s).name ≠ none ∧ (recvLoop name seen s).id ≠ none ↔
      2 ≤ (cstr s).count (ch '=') + if name = none then 0 else 1 := by
  have hend : ∀ (name : Option ℕ), ¬ 2 ≤ 0 + if name = none then 0 else 1 := by
    intro name
    split_ifs <;> omega
  induction s with
  | nil =>
    intro name seen
    exact iff_of_false (fun h => h.2 rfl) (hend name)
  | cons c s ih =>
    intro name seen
    by_cases hnul : c = NUL
    · subst hnul
      rw [recvLoop, if_pos rfl]
      exact iff_of_false (fun h => h.2 rfl) (hend name)
    · rw [cstr_cons hnul]
      by_cases hc : c = ch '='
      · subst hc
        rw [List.count_cons_self]
        cases name with
        | none =>
          rw [recvLoop_first, ih, if_neg (Option.some_ne_none _), if_pos rfl]
        | some p =>
          rw [recvLoop_second, if_neg (Option.some_ne_none _)]
          exact iff_of_true ⟨Option.some_ne_none _, Option.some_ne_none _⟩ (by omega)
      · rw [List.count_cons_of_ne hc, ← ih name (seen ++ [cutByte c]), recvLoop, if_neg hnul,
          if_neg (fun h => hc h.1), if_neg (fun h => cutByte_ne_eq hc h.1)]

theorem none_notMem_pointers (s : Bytes) :
    none ∉ [(recvStr s).name, (recvStr s).id] ↔ 2 ≤ (cstr s).count (ch '=') := by
  have hptr := pointers_recvLoop s none []
  rw [if_pos rfl, Nat.add_zero] at hptr
  rw [← hptr, recvStr, List.mem_cons, List.mem_singleton, not_or, ne_comm, ne_comm (b := none)]

/-! ### The stores -/

theorem lt_of_mem_cutStores (s : Bytes) : ∀ (name : Option ℕ) (cur : ℕ),
    ∀ i ∈ cutStores name cur s, i < cur + s.length := by
  induction s with
  | nil =>
    intro name cur i hi
    exact absurd hi List.not_mem_nil
  | cons c s ih =>
    intro name cur i hi
    have hrest : ∀ name, i ∈ cutStores name (cur + 1) s → i < cur + (c :: s).length := by
      intro name hi
      have := ih name (cur + 1) i hi
      rw [List.length_cons]
      omega
    rw [cutStores] at hi
    split_ifs at hi
    · exact absurd hi List.not_mem_nil
    · exact hrest _ hi
    · rcases List.mem_cons.mp hi with rfl | hi
      · simp
      · exact hrest _ hi
    · exact absurd hi List.not_mem_nil
    · exact hrest _ hi

/-- `recv_str` stores inside its string. -/
theorem cutStores_lt {s : Bytes} {n : ℕ} (h : s.length ≤ n) : ∀ i ∈ cutStores none 0 s, i < n :=
  fun i hi => by
    have := lt_of_mem_cutStores s none 0 i hi
    omega

/-! ### The theorem -/

theorem complete_query_iff (stdin q : Bytes) :
    Complete (showRun stdin (.query q)) ↔ TwoFields stdin (.query q) := by
  have hptr := none_notMem_pointers (cstr q)
  rw [cstr_eq_self (nul_notMem_cstr q)] at hptr
  constructor
  · intro h
    exact ⟨h.query _ (by simp [showRun]), hptr.mp h.pointers⟩
  · rintro ⟨hlen, hcount⟩
    have hpointers := hptr.mpr hcount
    refine ⟨?_, fun _ hi => absurd hi List.not_mem_nil, hpointers, closed_pageEnd ?_⟩
    · intro i hi
      rcases List.mem_append.mp hi with hi | hi
      · have := List.mem_range.mp hi
        omega
      · exact (cutStores_lt le_rfl i hi).trans hlen
    · rw [List.mem_cons, List.mem_singleton, not_or] at hpointers
      exact bad_printPointers bad_pageHead (Ne.symm hpointers.1) (Ne.symm hpointers.2)

theorem complete_content_iff (stdin : Bytes) (n : ℤ) :
    Complete (showRun stdin (.content n)) ↔ TwoFields stdin (.content n) := by
  have hptr := none_notMem_pointers (stdin.take n.toNat)
  have hSIZE : SIZE = 1024 := rfl
  constructor
  · intro h
    have hlast : n.toNat < SIZE := h.data _ (by simp [showRun])
    exact ⟨by omega, hptr.mp h.pointers⟩
  · rintro ⟨hlen, hcount⟩
    have hpointers := hptr.mpr hcount
    have hstr : (stdin.take n.toNat).length ≤ n.toNat := List.length_take_le _ _
    refine ⟨fun _ hi => absurd hi List.not_mem_nil, ?_, hpointers, closed_pageEnd ?_⟩
    · intro i hi
      rcases List.mem_append.mp hi with hi | hi
      · rcases List.mem_append.mp hi with hi | hi
        · have := List.mem_range.mp hi
          omega
        · rw [List.mem_singleton.mp hi]
          omega
      · have := cutStores_lt hstr i hi
        omega
    · rw [List.mem_cons, List.mem_singleton, not_or] at hpointers
      exact bad_printPointers bad_pageHead (Ne.symm hpointers.1) (Ne.symm hpointers.2)

theorem complete_error (stdin : Bytes) : Complete (showRun stdin .error) := by
  refine ⟨fun _ hi => absurd hi List.not_mem_nil, fun _ hi => absurd hi List.not_mem_nil,
    List.not_mem_nil, closed_pageEnd (by decide)⟩

/-- **The whole page comes out iff** the query, or the body, is shorter than its array and
has two `'='`. -/
theorem complete_iff {getenv : Environ} {stdin method : Bytes} {request : Request}
    (h : showMain getenv = some (method, request)) :
    (∃ run, showPage getenv stdin = some run ∧ Complete run) ↔ TwoFields stdin request := by
  rw [showPage, h]
  simp only [Option.map_some, Option.some.injEq, exists_eq_left']
  cases request with
  | query q => exact complete_query_iff stdin q
  | content n => exact complete_content_iff stdin n
  | error => exact iff_of_true (complete_error stdin) trivial

/-- An environment with these variables. -/
def environ (vars : List (Bytes × Bytes)) : Environ := fun name => vars.lookup name

def getEnviron (q : Bytes) : Environ :=
  environ [(bytes "REQUEST_STRING", bytes "GET"), (bytes "QUERY_STRING", q)]

def postEnviron (len : Bytes) : Environ :=
  environ [(bytes "REQUEST_STRING", bytes "POST"), (bytes "CONTENT_LENGTH", len)]

theorem showMain_getEnviron (q : Bytes) :
    showMain (getEnviron q) = some (bytes "GET", .query q) := rfl

theorem showMain_postEnviron (len : Bytes) :
    showMain (postEnviron len) = some (bytes "POST", .content (atoi len)) := rfl

/-- Two fields in the query, and in a body. -/
theorem complete_iff_example :
    ((∃ run, showPage (getEnviron (bytes "n=ann&i=7")) [] = some run ∧ Complete run) ↔
      TwoFields [] (.query (bytes "n=ann&i=7"))) ∧
    ((∃ run, showPage (postEnviron (bytes "9")) (bytes "n=ann&i=7") = some run ∧ Complete run) ↔
      TwoFields (bytes "n=ann&i=7") (.content (atoi (bytes "9")))) :=
  ⟨complete_iff (showMain_getEnviron _), complete_iff (showMain_postEnviron _)⟩

/-- With one field `id` is `NULL`, and the page is not closed; a body of 1024 bytes is too
long. -/
theorem not_complete_one_field :
    (¬ ∃ run, showPage (getEnviron (bytes "n=ann")) [] = some run ∧ Complete run) ∧
      ¬ ∃ run, showPage (postEnviron (bytes "1024")) (List.replicate 1024 (ch '=')) = some run ∧
        Complete run := by
  have hlen : atoi (bytes "1024") = 1024 := by decide +kernel
  constructor
  · rintro ⟨run, hrun, hcomplete⟩
    rw [showPage, showMain_getEnviron] at hrun
    obtain rfl := Option.some.inj hrun
    exact absurd ((complete_query_iff _ _).mp hcomplete).2 (by decide)
  · rintro ⟨run, hrun, hcomplete⟩
    rw [showPage, showMain_postEnviron, hlen] at hrun
    obtain rfl := Option.some.inj hrun
    exact absurd ((complete_content_iff _ _).mp hcomplete).1 (by decide)

end FacePerception.Cgi
