import FacePerception.Server.GetLine
import FacePerception.Server.Store

/-!
# `get_string`, one read at a time

The loops of `get_string` (`server/server_http.h`, lines 63–74) as they move their
pointer over the array `query[QUERY_SIZE]` of `Accept`, which is zero-filled.

Results:
* `skipEq_eq_tail`: where the loops that look for a `'='` stop.
* `getElem?_queryArray`: what the array holds where the string and its `'\0'` are.
* `skipEq_drop`, `takeWhile_drop`: one turn of each loop, against `getString`.
-/

namespace FacePerception.Server

open CString

/-- The array `query` that holds the string `q`. -/
def queryArray (q : Bytes) : Bytes := q ++ List.replicate (QUERY_SIZE - q.length) NUL

/-- The test `*query++ !='=' && *query !='\0'` with the pointer at `pos`; `none` if
it reads beyond the array. -/
def skipTest (query : Bytes) (pos : ℕ) : Option Bool :=
  match query[pos]? with
  | none => none
  | some c => if c ≠ ch '=' then (query[pos + 1]?).map fun d => d ≠ NUL else some false

/-- The test `*query !='&' && *query !='\0'` on the byte `c`. -/
def nameByte (c : UInt8) : Bool := c ≠ ch '&' ∧ c ≠ NUL

theorem getString_eq (query : Bytes) :
    getString query =
      ((skipEq query).takeWhile nameByte, cstr (skipEq ((skipEq query).dropWhile nameByte))) := rfl

/-- The loops that look for a `'='` find what is behind the first. -/
theorem skipEq_eq_tail {q : Bytes} (hnul : NUL ∉ q) :
    skipEq q = (q.dropWhile (· ≠ ch '=')).tail := by
  induction q with
  | nil => rfl
  | cons c q ih =>
    obtain ⟨-, hq⟩ := not_or.mp (List.mem_cons.not.mp hnul)
    rw [skipEq]
    by_cases hc : c = ch '='
    · rw [if_neg (fun h => h.1 hc), List.dropWhile_cons_of_neg (by simpa using hc)]
      rfl
    · rw [List.dropWhile_cons_of_pos (by simpa using hc), ← ih hq]
      cases q with
      | nil => exact if_neg fun h => h.2 rfl
      | cons d q =>
        have hd : d ≠ NUL := fun hd => hq (hd ▸ List.mem_cons_self)
        have hgo : c ≠ ch '=' ∧ deref (d :: q) ≠ NUL := ⟨hc, hd⟩
        rw [if_pos hgo]

theorem getElem?_queryArray {q : Bytes} {k : ℕ} (hk : k < QUERY_SIZE) :
    (queryArray q)[k]? = some (deref (q.drop k)) := by
  unfold queryArray deref
  by_cases h : k < q.length
  · rw [List.getElem?_append_left h, List.getElem?_eq_getElem h, List.drop_eq_getElem_cons h]
    rfl
  · rw [List.getElem?_append_right (by omega), List.drop_eq_nil_of_le (by omega),
      List.getElem?_replicate, if_pos (by omega)]
    rfl

theorem NUL_mem_drop_queryArray {q : Bytes} {k : ℕ} (hq : q.length < QUERY_SIZE)
    (hk : k < QUERY_SIZE) : NUL ∈ (queryArray q).drop k := by
  rw [queryArray, List.drop_append, List.mem_append, List.drop_replicate, List.mem_replicate]
  right
  exact ⟨by omega, rfl⟩

theorem cstr_append_zeros (s : Bytes) (n : ℕ) : cstr (s ++ List.replicate n NUL) = cstr s := by
  unfold cstr
  induction s with
  | nil => cases n <;> simp [List.replicate]
  | cons c s ih =>
    rw [List.cons_append, List.takeWhile_cons, List.takeWhile_cons]
    split_ifs
    · rw [ih]
    · rfl

theorem cstr_drop_queryArray (q : Bytes) (k : ℕ) :
    cstr ((queryArray q).drop k) = cstr (q.drop k) := by
  rw [queryArray, List.drop_append, List.drop_replicate, cstr_append_zeros]

theorem deref_drop_of_le {q : Bytes} {k : ℕ} (h : q.length ≤ k) : deref (q.drop k) = NUL := by
  rw [List.drop_eq_nil_of_le h]
  rfl

theorem lt_length_of_deref {q : Bytes} {k : ℕ} (h : deref (q.drop k) ≠ NUL) : k < q.length := by
  by_contra hk
  exact h (deref_drop_of_le (not_lt.mp hk))

theorem skipTest_queryArray {q : Bytes} {pos : ℕ} (hpos : pos + 1 < QUERY_SIZE) :
    skipTest (queryArray q) pos =
      some (deref (q.drop pos) ≠ ch '=' ∧ deref (q.drop (pos + 1)) ≠ NUL : Bool) := by
  rw [skipTest, getElem?_queryArray (by omega), getElem?_queryArray hpos]
  by_cases h : deref (q.drop pos) = ch '='
  · simp [h]
  · simp [h]

/-- A turn of the two loops that look for a `'='`. -/
theorem skipEq_drop (q : Bytes) (pos : ℕ) :
    skipEq (q.drop pos) =
      if deref (q.drop pos) ≠ ch '=' ∧ deref (q.drop (pos + 1)) ≠ NUL then
        skipEq (q.drop (pos + 1))
      else q.drop (pos + 1) := by
  by_cases h : pos < q.length
  · rw [List.drop_eq_getElem_cons h, skipEq]
    rfl
  · have hend := deref_drop_of_le (q := q) (k := pos + 1) (by omega)
    rw [if_neg (by simp [hend]), List.drop_eq_nil_of_le (not_lt.mp h),
      List.drop_eq_nil_of_le (by omega), skipEq]

/-- A turn of the loop that copies the name. -/
theorem takeWhile_drop {q : Bytes} {pos : ℕ} (h : nameByte (deref (q.drop pos)) = true) :
    (q.drop pos).takeWhile nameByte =
      deref (q.drop pos) :: (q.drop (pos + 1)).takeWhile nameByte ∧
    (q.drop pos).dropWhile nameByte = (q.drop (pos + 1)).dropWhile nameByte := by
  have hlt : pos < q.length := by
    apply lt_length_of_deref
    simp only [nameByte, decide_eq_true_eq] at h
    exact h.2
  rw [List.drop_eq_getElem_cons hlt] at h ⊢
  exact ⟨List.takeWhile_cons_of_pos h, List.dropWhile_cons_of_pos h⟩

/-- The end of that loop. -/
theorem takeWhile_drop_of_not {q : Bytes} {pos : ℕ} (h : nameByte (deref (q.drop pos)) = false) :
    (q.drop pos).takeWhile nameByte = [] ∧ (q.drop pos).dropWhile nameByte = q.drop pos := by
  by_cases hlt : pos < q.length
  · rw [List.drop_eq_getElem_cons hlt] at h ⊢
    have hc : ¬ nameByte q[pos] = true := Bool.eq_false_iff.mp h
    exact ⟨List.takeWhile_cons_of_neg hc, List.dropWhile_cons_of_neg hc⟩
  · rw [List.drop_eq_nil_of_le (not_lt.mp hlt)]
    exact ⟨rfl, rfl⟩

end FacePerception.Server
