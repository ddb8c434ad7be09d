import FacePerception.Server.GetString

/-!
# `get_string` within its strings

`get_string` (`server/server_http.h`, lines 54–79) on a string of length `n` that stands
alone in an array of `n + 1` bytes. A pointer into the array is the list of the bytes from
it on, and a read at its end gives `none`. `tmp` has `n + 1` bytes too, and `memset` clears
as many as a pointer takes.

Results:
* `getStringIn_eq`: when `get_string` reads behind its array, and else what it finds and
  which bytes it stores.
* `insideStrings_iff`: when it stays inside the two arrays.
-/

namespace FacePerception.Server

open CString

/-- The loops that look for a `'='` (lines 64–65, 73–74). -/
def skipEqIn : Bytes → Option Bytes
  | [] => none
  | c :: query =>
    if c = ch '=' then some query
    else query.head?.bind fun d => if d ≠ NUL then skipEqIn query else some query

/-- The loop that copies the name (lines 66–67): the bytes it stores, and `query`. -/
def copyNameIn : Bytes → Option (Bytes × Bytes)
  | [] => none
  | c :: query =>
    if nameByte c then (copyNameIn query).map fun r => (c :: r.1, r.2) else some ([], c :: query)

/-- A string that is printed or assigned (lines 57 and 76). -/
def stringIn : Bytes → Option Bytes
  | [] => none
  | c :: query => if c = NUL then some [] else (stringIn query).map (c :: ·)

/-- What `get_string` finds, and the indices of the bytes of `tmp` it writes. -/
structure Extracted where
  name : Bytes
  id : Bytes
  stores : List ℕ

/-- `get_string` (lines 55–79), where `sizeof(tmp)` is `ptrSize`. -/
def getStringIn (ptrSize : ℕ) (query : Bytes) : Option Extracted := do
  let _ ← stringIn query
  let query ← skipEqIn query
  let (name, query) ← copyNameIn query
  let query ← skipEqIn query
  let id ← stringIn query
  some { name := name, id := id,
         stores := List.range ptrSize ++ List.range name.length ++ [name.length] }

/-- On the string `q` nothing is read behind its `'\0'` nor written behind `tmp`. -/
def InsideStrings (ptrSize : ℕ) (q : Bytes) : Prop :=
  ∃ r, getStringIn ptrSize (q ++ [NUL]) = some r ∧ ∀ i ∈ r.stores, i < q.length + 1

/-! ## The loops -/

/-- From the `'\0'` on, a loop that looks for a `'='` steps behind it. -/
theorem skipEqIn_end : skipEqIn [NUL] = none := by decide

/-- And else it stays on the string. -/
theorem skipEqIn_append {q : Bytes} (hne : q ≠ []) (hnul : NUL ∉ q) :
    skipEqIn (q ++ [NUL]) = some (skipEq q ++ [NUL]) := by
  induction q with
  | nil => exact absurd rfl hne
  | cons c q ih =>
    rw [List.cons_append, skipEqIn, skipEq]
    by_cases hc : c = ch '='
    · rw [if_pos hc, if_neg (fun h => h.1 hc)]
    · rw [if_neg hc]
      cases q with
      | nil =>
        have hend : ¬ (c ≠ ch '=' ∧ deref [] ≠ NUL) := fun h => h.2 rfl
        rw [if_neg hend]
        rfl
      | cons d q =>
        have hd : d ≠ NUL := by
          rintro rfl
          exact hnul (by simp)
        have hgo : c ≠ ch '=' ∧ deref (d :: q) ≠ NUL := ⟨hc, hd⟩
        rw [if_pos hgo, ← ih (List.cons_ne_nil d q) (fun h => hnul (List.mem_cons_of_mem c h))]
        exact if_pos hd

theorem copyNameIn_append {q : Bytes} (hnul : NUL ∉ q) :
    copyNameIn (q ++ [NUL]) = some (q.takeWhile nameByte, q.dropWhile nameByte ++ [NUL]) := by
  induction q with
  | nil => rfl
  | cons c q ih =>
    rw [List.cons_append, copyNameIn]
    by_cases hc : nameByte c = true
    · rw [if_pos hc, ih (fun h => hnul (List.mem_cons_of_mem c h)),
        List.takeWhile_cons_of_pos hc, List.dropWhile_cons_of_pos hc]
      rfl
    · rw [if_neg hc, List.takeWhile_cons_of_neg hc, List.dropWhile_cons_of_neg hc]
      rfl

theorem stringIn_append {q : Bytes} (hnul : NUL ∉ q) : stringIn (q ++ [NUL]) = some q := by
  induction q with
  | nil => rfl
  | cons c q ih =>
    obtain ⟨hc, hq⟩ := not_or.mp (List.mem_cons.not.mp hnul)
    rw [List.cons_append, stringIn, if_neg (Ne.symm hc), ih hq]
    rfl

theorem skipEq_subset (q : Bytes) : skipEq q ⊆ q := by
  intro b hb
  induction q with
  | nil => exact hb
  | cons c q ih =>
    rw [skipEq] at hb
    split_ifs at hb
    · exact List.mem_cons_of_mem c (ih hb)
    · exact List.mem_cons_of_mem c hb

theorem length_skipEq_le (q : Bytes) : (skipEq q).length ≤ q.length := by
  induction q with
  | nil => exact le_rfl
  | cons c q ih =>
    rw [skipEq, List.length_cons]
    split_ifs <;> omega

theorem dropWhile_nameByte_ne_nil {s : Bytes} (hnul : NUL ∉ s) :
    s.dropWhile nameByte ≠ [] ↔ ch '&' ∈ s := by
  rw [ne_eq, List.dropWhile_eq_nil_iff, ← not_iff_not, not_not]
  constructor
  · intro h hamp
    exact absurd (h _ hamp) (by decide)
  · intro h c hc
    exact decide_eq_true ⟨fun heq => h (heq ▸ hc), fun heq => hnul (heq ▸ hc)⟩

/-! ## The two arrays -/

/-- **`get_string` reads behind its array iff no `'&'` ends the name**; else it finds what
`getString` says. -/
theorem getStringIn_eq (ptrSize : ℕ) {q : Bytes} (hne : q ≠ []) (hnul : NUL ∉ q) :
    getStringIn ptrSize (q ++ [NUL]) =
      if ch '&' ∈ skipEq q then
        some { name := (getString q).1, id := (getString q).2,
               stores := List.range ptrSize ++ List.range (getString q).1.length ++
                 [(getString q).1.length] }
      else none := by
  have hskip : NUL ∉ skipEq q := fun h => hnul (skipEq_subset q h)
  have hrest : NUL ∉ (skipEq q).dropWhile nameByte :=
    fun h => hskip ((List.dropWhile_suffix _).subset h)
  rw [getStringIn, stringIn_append hnul, skipEqIn_append hne hnul]
  simp only [Option.bind_eq_bind, Option.bind_some, copyNameIn_append hskip]
  by_cases hamp : ch '&' ∈ skipEq q
  · have hid : NUL ∉ skipEq ((skipEq q).dropWhile nameByte) :=
      fun h => hrest (skipEq_subset _ h)
    rw [if_pos hamp, skipEqIn_append ((dropWhile_nameByte_ne_nil hskip).mpr hamp) hrest,
      getString_eq, cstr_eq_self hid]
    simp only [Option.bind_some, stringIn_append hid]
  · have hnil : (skipEq q).dropWhile nameByte = [] :=
      not_not.mp ((dropWhile_nameByte_ne_nil hskip).not.mpr hamp)
    rw [if_neg hamp, hnil, List.nil_append, skipEqIn_end]
    rfl

theorem length_name_le (q : Bytes) : (getString q).1.length ≤ q.length := by
  rw [getString_eq]
  exact (List.takeWhile_prefix nameByte).length_le.trans (length_skipEq_le q)

/-- **`get_string` stays inside its strings iff** a `'&'` comes behind the first `'='` and
the string with its `'\0'` is as long as a pointer. -/
theorem insideStrings_iff {ptrSize : ℕ} {q : Bytes} (hne : q ≠ []) (hnul : NUL ∉ q) :
    InsideStrings ptrSize q ↔
      ptrSize ≤ q.length + 1 ∧ ch '&' ∈ (q.dropWhile (· ≠ ch '=')).tail := by
  have hname := length_name_le q
  rw [InsideStrings, getStringIn_eq ptrSize hne hnul, ← skipEq_eq_tail hnul]
  split_ifs with hamp
  · constructor
    · rintro ⟨r, heq, hstores⟩
      obtain rfl := Option.some.inj heq
      refine ⟨?_, hamp⟩
      -- the last byte that `memset` clears
      by_contra hlt
      have hlast := hstores (ptrSize - 1) (by simp; omega)
      omega
    · intro ⟨hptr, _⟩
      refine ⟨_, rfl, ?_⟩
      intro i hi
      simp only [List.mem_append, List.mem_range, List.mem_singleton] at hi
      omega
  · constructor
    · rintro ⟨r, heq, -⟩
      exact absurd heq (by simp)
    · exact fun h => absurd h.2 hamp

/-- A query that is long enough for a pointer of either size. -/
theorem insideStrings_iff_example :
    (InsideStrings 4 (bytes "name=ann&id=7") ↔ 4 ≤ (bytes "name=ann&id=7").length + 1 ∧
      ch '&' ∈ ((bytes "name=ann&id=7").dropWhile (· ≠ ch '=')).tail) ∧
    (InsideStrings 8 (bytes "name=ann&id=7") ↔ 8 ≤ (bytes "name=ann&id=7").length + 1 ∧
      ch '&' ∈ ((bytes "name=ann&id=7").dropWhile (· ≠ ch '=')).tail) :=
  ⟨insideStrings_iff (by decide) (by decide), insideStrings_iff (by decide) (by decide)⟩

/-- Without a `'&'` the byte behind the `'\0'` is read; and two bytes are too few for
`memset`. -/
theorem not_insideStrings_name_only :
    ¬ InsideStrings 8 (bytes "name=ann") ∧ ¬ InsideStrings 4 (bytes "name=ann") ∧
      ¬ InsideStrings 8 (bytes "=&") ∧ ¬ InsideStrings 4 (bytes "=&") := by
  have hread : ∀ ptrSize, ¬ InsideStrings ptrSize (bytes "name=ann") := by
    rintro ptrSize ⟨r, heq, -⟩
    rw [getStringIn_eq ptrSize (by decide) (by decide), if_neg (by decide)] at heq
    exact absurd heq (by simp)
  have hclear : ∀ ptrSize, 3 < ptrSize → ¬ InsideStrings ptrSize (bytes "=&") := by
    rintro ptrSize hptr ⟨r, heq, hstores⟩
    rw [getStringIn_eq ptrSize (by decide) (by decide), if_pos (by decide)] at heq
    obtain rfl := Option.some.inj heq
    have hthird : 3 < (bytes "=&").length + 1 := hstores 3 (by simp [hptr])
    exact absurd hthird (by decide)
  exact ⟨hread 8, hread 4, hclear 8 (by norm_num), hclear 4 (by norm_num)⟩

end FacePerception.Server
