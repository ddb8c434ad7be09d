import FacePerception.Lib.Split

/-!
# Tokens of a list

The tokens of a list are its maximal runs of elements other than `sep`. A scan from some
position skips separators and takes what follows up to the next one.

* `exists_firstToken`: every list begins with separators and then its first token.
* `FirstToken.tokensOn_eq`: the first token, and the others.
* `FirstToken.scan_drop`: what a scan finds from any position.
-/

namespace List

variable {α : Type} [DecidableEq α] (sep : α)

/-- The maximal runs of elements other than `sep`. -/
def tokensOn (l : List α) : List (List α) := (l.splitOn sep).filter (· ≠ [])

/-- What a scan finds from the start of `l` on. -/
def scan (l : List α) : List α := (l.dropWhile (· = sep)).takeWhile (· ≠ sep)

/-- `l` begins with `k` separators and its first token `w`, and `rest` follows. -/
structure FirstToken (l : List α) (k : ℕ) (w rest : List α) : Prop where
  eq : l = replicate k sep ++ (w ++ rest)
  token : sep ∉ w
  stops : ∀ c ∈ rest.head?, c = sep
  ends : w = [] → rest = []

theorem exists_firstToken (l : List α) : ∃ k w rest, FirstToken sep l k w rest := by
  have hspaces : l.takeWhile (· = sep) = replicate (l.takeWhile (· = sep)).length sep := by
    rw [eq_replicate_iff]
    exact ⟨rfl, fun c hc => by simpa using mem_takeWhile_imp hc⟩
  refine ⟨(l.takeWhile (· = sep)).length, scan sep l,
    (l.dropWhile (· = sep)).dropWhile (· ≠ sep), ?_, ?_, ?_, ?_⟩
  · rw [← hspaces, scan, takeWhile_append_dropWhile, takeWhile_append_dropWhile]
  · intro hmem
    simpa using mem_takeWhile_imp hmem
  · intro c hc
    have hhead := head?_dropWhile_not (· ≠ sep) (l.dropWhile (· = sep))
    rw [Option.mem_def.mp hc] at hhead
    simpa using hhead
  · intro hnil
    rw [scan] at hnil
    cases hdrop : l.dropWhile (· = sep) with
    | nil => rfl
    | cons c s =>
      have hhead := head?_dropWhile_not (· = sep) l
      rw [hdrop] at hhead hnil
      have hc : c ≠ sep := by simpa using hhead
      rw [takeWhile_cons_of_pos (by simpa using hc)] at hnil
      cases hnil

variable {sep} {l w rest : List α} {k : ℕ}

theorem tokensOn_nil : tokensOn sep [] = [] := by
  rw [tokensOn, splitOn_nil]
  rfl

theorem tokensOn_cons_sep (l : List α) : tokensOn sep (sep :: l) = tokensOn sep l := by
  have hsplit := splitOn_append_cons_self_of_not_mem (not_mem_nil (a := sep)) l
  rw [nil_append] at hsplit
  rw [tokensOn, hsplit, filter_cons_of_neg (by simp), tokensOn]

theorem tokensOn_replicate_append (k : ℕ) (l : List α) :
    tokensOn sep (replicate k sep ++ l) = tokensOn sep l := by
  induction k with
  | zero => rw [replicate_zero, nil_append]
  | succ k ih => rw [replicate_succ, cons_append, tokensOn_cons_sep, ih]

theorem tokensOn_append (hw : sep ∉ w) (hne : w ≠ []) (hrest : ∀ c ∈ rest.head?, c = sep) :
    tokensOn sep (w ++ rest) = w :: tokensOn sep rest := by
  have hkeep : decide (w ≠ []) = true := decide_eq_true hne
  cases rest with
  | nil => rw [append_nil, tokensOn, splitOn_eq_singleton hw, filter_cons, if_pos hkeep, filter_nil,
      tokensOn_nil]
  | cons c rest =>
    obtain rfl := hrest c rfl
    rw [tokensOn_cons_sep, tokensOn, splitOn_append_cons_self_of_not_mem hw, filter_cons,
      if_pos hkeep, tokensOn]

namespace FirstToken

theorem tokensOn_eq (h : FirstToken sep l k w rest) (hne : w ≠ []) :
    tokensOn sep l = w :: tokensOn sep rest := by
  rw [h.eq, tokensOn_replicate_append, tokensOn_append h.token hne h.stops]

theorem tokensOn_eq_nil (h : FirstToken sep l k [] rest) : tokensOn sep l = [] := by
  rw [h.eq, h.ends rfl, tokensOn_replicate_append, append_nil, tokensOn_nil]

theorem takeWhile_length (h : FirstToken sep l k w rest) :
    (l.takeWhile (· = sep)).length = k := by
  have hstop : ∀ c ∈ (w ++ rest).head?, c ≠ sep := by
    intro c hc
    cases hw : w with
    | nil =>
      rw [hw, h.ends hw] at hc
      cases hc
    | cons d w' =>
      rw [hw] at hc
      have hmem : c ∈ w := by
        rw [hw]
        exact mem_of_mem_head? hc
      exact fun hcs => h.token (hcs ▸ hmem)
  rw [h.eq, takeWhile_append_of_pos (by simp +contextual)]
  cases happ : w ++ rest with
  | nil => simp
  | cons c s => rw [takeWhile_cons_of_neg (by simpa using hstop c (by rw [happ]; rfl)), append_nil,
      length_replicate]

end FirstToken

theorem scan_replicate_append (k : ℕ) (l : List α) :
    scan sep (replicate k sep ++ l) = scan sep l := by
  rw [scan, dropWhile_append_of_pos (by simp +contextual), scan]

theorem scan_append (hw : sep ∉ w) (hne : w ≠ []) (hrest : ∀ c ∈ rest.head?, c = sep) :
    scan sep (w ++ rest) = w := by
  rw [scan, dropWhile_eq_append hw hne]
  cases rest with
  | nil => rw [append_nil, takeWhile_ne_of_notMem hw]
  | cons c rest =>
    obtain rfl := hrest c rfl
    exact takeWhile_ne_append hw rest

theorem scan_nil : scan sep [] = [] := rfl

/-- A scan finds the first token. -/
theorem scan_eq_head (l : List α) : scan sep l = (tokensOn sep l).headD [] := by
  obtain ⟨k, w, rest, h⟩ := exists_firstToken sep l
  by_cases hne : w = []
  · subst hne
    rw [h.tokensOn_eq_nil, h.eq, h.ends rfl, scan_replicate_append, append_nil, scan_nil]
    rfl
  · rw [h.tokensOn_eq hne, h.eq, scan_replicate_append, scan_append h.token hne h.stops]
    rfl

/-- **What a scan finds from position `p`**: the rest of the first token from there on, or
what it finds behind it. -/
theorem FirstToken.scan_drop (h : FirstToken sep l k w rest) (p : ℕ) :
    scan sep (l.drop p) =
      if p < k + w.length then w.drop (p - k) else scan sep (rest.drop (p - (k + w.length))) := by
  by_cases hw : w = []
  · rw [h.eq, hw, h.ends hw, drop_nil, drop_nil, append_nil, append_nil, drop_replicate,
      scan_nil, ite_self, ← append_nil (replicate _ _), scan_replicate_append, scan_nil]
  · have hdrop : l.drop p = replicate (k - p) sep ++ (w ++ rest).drop (p - k) := by
      rw [h.eq, drop_append, drop_replicate, length_replicate]
    have hwlen := length_pos_iff.mpr hw
    rw [hdrop, scan_replicate_append, drop_append]
    split_ifs with hp
    · have hne : w.drop (p - k) ≠ [] := by
        rw [ne_eq, drop_eq_nil_iff]
        omega
      rw [show p - k - w.length = 0 by omega, drop_zero]
      exact scan_append (fun hmem => h.token (mem_of_mem_drop hmem)) hne h.stops
    · rw [drop_of_length_le (by omega), nil_append, Nat.sub_sub]

end List
