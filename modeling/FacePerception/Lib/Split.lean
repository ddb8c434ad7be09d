import Mathlib.Data.List.TakeWhile

/-!
# Splitting a list at the first occurrence of an element

A list with `a` in it is `w ++ a :: t` for one `w` without `a`, its part before the
first `a`.

* `takeWhile_ne_append`, `dropWhile_ne_append`: that part, and what is left.
* `append_cons_unique`: there is one such `w` only.
* `drop_append_cons`: what is behind that element.
* `map_ite_of_notMem`: replacing it where it does not occur.
-/

namespace List

variable {α : Type} [DecidableEq α] {a : α} {w w' t t' : List α}

theorem takeWhile_ne_of_notMem (h : a ∉ w) : w.takeWhile (· ≠ a) = w := by
  rw [takeWhile_eq_self_iff]
  intro c hc
  exact decide_eq_true fun hca => h (hca ▸ hc)

theorem dropWhile_ne_of_notMem (h : a ∉ w) : w.dropWhile (· ≠ a) = [] := by
  rw [dropWhile_eq_nil_iff]
  intro c hc
  exact decide_eq_true fun hca => h (hca ▸ hc)

theorem takeWhile_ne_append (h : a ∉ w) (t : List α) :
    (w ++ a :: t).takeWhile (· ≠ a) = w := by
  have hw : ∀ c ∈ w, decide (c ≠ a) = true := takeWhile_eq_self_iff.mp (takeWhile_ne_of_notMem h)
  rw [takeWhile_append_of_pos hw, takeWhile_cons_of_neg (by simp), append_nil]

theorem dropWhile_ne_append (h : a ∉ w) (t : List α) :
    (w ++ a :: t).dropWhile (· ≠ a) = a :: t := by
  have hw : ∀ c ∈ w, decide (c ≠ a) = true := takeWhile_eq_self_iff.mp (takeWhile_ne_of_notMem h)
  rw [dropWhile_append_of_pos hw, dropWhile_cons_of_neg (by simp)]

theorem dropWhile_eq_append (h : a ∉ w) (hne : w ≠ []) (t : List α) :
    (w ++ t).dropWhile (· = a) = w ++ t := by
  obtain ⟨c, w, rfl⟩ := exists_cons_of_ne_nil hne
  have hc : c ≠ a := fun heq => h (heq ▸ mem_cons_self)
  rw [cons_append, dropWhile_cons_of_neg (by simpa using hc)]

theorem append_cons_unique (h : w ++ a :: t = w' ++ a :: t') (hw : a ∉ w) (hw' : a ∉ w') :
    w = w' ∧ t = t' := by
  have htake := congrArg (takeWhile (· ≠ a)) h
  have hdrop := congrArg (dropWhile (· ≠ a)) h
  rw [takeWhile_ne_append hw, takeWhile_ne_append hw'] at htake
  rw [dropWhile_ne_append hw, dropWhile_ne_append hw', cons.injEq] at hdrop
  exact ⟨htake, hdrop.2⟩

omit [DecidableEq α] in
theorem drop_append_cons (w : List α) (a : α) (t : List α) :
    (w ++ a :: t).drop (w.length + 1) = t := by
  rw [← drop_drop, drop_left, drop_one, tail_cons]

theorem map_ite_of_notMem (h : a ∉ w) (b : α) : w.map (fun c => if c = a then b else c) = w := by
  have hid : ∀ c ∈ w, (if c = a then b else c) = id c := by
    intro c hc
    have hca : c ≠ a := fun hca => h (hca ▸ hc)
    exact if_neg hca
  rw [map_congr_left hid, map_id]

end List
