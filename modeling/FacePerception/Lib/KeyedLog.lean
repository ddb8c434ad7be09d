import Mathlib.Data.Finset.Card
import Mathlib.Data.List.Infix
import Mathlib.Data.List.Nodup

/-!
# Logs kept by key

A `KeyedLog` keeps one entry per key. An event whose key is new appends a fresh
entry; an event whose key is known updates that entry in place.

* `keys_foldl_upsert`: after a history the keys stand in the order in which they
  first occurred (`order`).
* `entryOf_of_mem_foldl`: the entry of a key is what its own events alone make of
  it, whatever other events came between.
* `upsert_of_getElem?`, `upsert_of_notMem`: what an event does.
* `upsert_getElem?`: an event leaves the entries of all other keys where and as
  they are.
-/

/-- Entries `α` kept by key `κ` under events `ε`. -/
structure KeyedLog (κ ε α : Type) where
  key : ε → κ
  keyOf : α → κ
  create : ε → α
  update : α → ε → α
  keyOf_create : ∀ e, keyOf (create e) = key e
  keyOf_update : ∀ a e, keyOf (update a e) = keyOf a

namespace KeyedLog

variable {κ ε α : Type} [DecidableEq κ] (b : KeyedLog κ ε α)

/-- The keys of a history, each at its first occurrence. -/
def order (ks : List κ) : List κ := ks.foldl (fun acc k => if k ∈ acc then acc else acc ++ [k]) []

/-- One event. -/
def upsert : List α → ε → List α
  | [], e => [b.create e]
  | a :: l, e => if b.keyOf a = b.key e then b.update a e :: l else a :: upsert l e

/-- The events of one key. -/
def eventsOf (h : List ε) (k : κ) : List ε := h.filter fun e => b.key e = k

/-- What a list of events makes of one entry. -/
def replay : List ε → Option α
  | [] => none
  | e :: es => some (es.foldl b.update (b.create e))

/-- The entry of key `k` after the history `h`. -/
def entryOf (h : List ε) (k : κ) : Option α := b.replay (b.eventsOf h k)

/-! ## The order of first occurrence -/

theorem order_append_singleton (ks : List κ) (k : κ) :
    order (ks ++ [k]) = if k ∈ order ks then order ks else order ks ++ [k] := by
  rw [order, List.foldl_append]
  rfl

theorem mem_order (ks : List κ) (k : κ) : k ∈ order ks ↔ k ∈ ks := by
  induction ks using List.reverseRecOn with
  | nil => simp [order]
  | append_singleton ks k' ih =>
    rw [order_append_singleton]
    by_cases h : k' ∈ order ks
    · rw [if_pos h, ih]
      constructor
      · intro hk
        exact List.mem_append_left _ hk
      · intro hk
        rcases List.mem_append.mp hk with hk | hk
        · exact hk
        · exact ih.mp (List.mem_singleton.mp hk ▸ h)
    · simp [if_neg h, ih]

theorem nodup_order (ks : List κ) : (order ks).Nodup := by
  induction ks using List.reverseRecOn with
  | nil => simp [order]
  | append_singleton ks k ih =>
    rw [order_append_singleton]
    split_ifs with h
    · exact ih
    · rw [List.nodup_append]
      refine ⟨ih, by simp, ?_⟩
      rintro a ha c hc rfl
      exact h (List.mem_singleton.mp hc ▸ ha)

theorem length_order (ks : List κ) : (order ks).length = ks.toFinset.card := by
  rw [← List.toFinset_card_of_nodup (nodup_order ks)]
  congr 1
  ext k
  simp [mem_order]

/-! ## One event -/

theorem keys_upsert (l : List α) (e : ε) :
    (b.upsert l e).map b.keyOf =
      if b.key e ∈ l.map b.keyOf then l.map b.keyOf else l.map b.keyOf ++ [b.key e] := by
  induction l with
  | nil => simp [upsert, b.keyOf_create]
  | cons a l ih =>
    rw [upsert]
    split_ifs with h1 h2 h2
    · simp [b.keyOf_update]
    · simp [h1] at h2
    · rw [List.map_cons, ih, if_pos]
      · rfl
      · simpa [Ne.symm h1] using h2
    · rw [List.map_cons, ih, if_neg]
      · rfl
      · simp only [List.map_cons, List.mem_cons, not_or] at h2
        exact h2.2

theorem mem_upsert {l : List α} (hl : (l.map b.keyOf).Nodup) {a : α} {e : ε}
    (h : a ∈ b.upsert l e) :
    (b.keyOf a ≠ b.key e ∧ a ∈ l) ∨ (∃ a' ∈ l, b.keyOf a' = b.key e ∧ a = b.update a' e) ∨
      (b.key e ∉ l.map b.keyOf ∧ a = b.create e) := by
  induction l with
  | nil =>
    rw [upsert, List.mem_singleton] at h
    exact Or.inr (Or.inr ⟨by simp, h⟩)
  | cons c l ih =>
    rw [List.map_cons, List.nodup_cons] at hl
    rw [upsert] at h
    split_ifs at h with hc
    · rcases List.mem_cons.mp h with rfl | ha
      · exact Or.inr (Or.inl ⟨c, List.mem_cons_self, hc, rfl⟩)
      · refine Or.inl ⟨fun hk => hl.1 ?_, List.mem_cons_of_mem c ha⟩
        rw [hc, ← hk]
        exact List.mem_map_of_mem ha
    · rcases List.mem_cons.mp h with rfl | ha
      · exact Or.inl ⟨hc, List.mem_cons_self⟩
      · rcases ih hl.2 ha with ⟨hk, ha⟩ | ⟨a', ha', hk, rfl⟩ | ⟨hk, rfl⟩
        · exact Or.inl ⟨hk, List.mem_cons_of_mem c ha⟩
        · exact Or.inr (Or.inl ⟨a', List.mem_cons_of_mem c ha', hk, rfl⟩)
        · refine Or.inr (Or.inr ⟨?_, rfl⟩)
          rw [List.map_cons, List.mem_cons, not_or]
          exact ⟨fun heq => hc heq.symm, hk⟩

theorem upsert_getElem? {l : List α} {e : ε} {i : ℕ} {a : α} (hi : l[i]? = some a)
    (hk : b.keyOf a ≠ b.key e) : (b.upsert l e)[i]? = some a := by
  induction l generalizing i with
  | nil => simp at hi
  | cons c l ih =>
    rw [upsert]
    cases i with
    | zero =>
      rw [List.getElem?_cons_zero, Option.some.injEq] at hi
      rw [if_neg (hi ▸ hk), List.getElem?_cons_zero, hi]
    | succ i =>
      rw [List.getElem?_cons_succ] at hi
      split_ifs with hc
      · rw [List.getElem?_cons_succ, hi]
      · rw [List.getElem?_cons_succ, ih hi]

/-- `upsert` as a search for the first entry of the key, followed by an update
at its position or an append. -/
theorem upsert_eq_modify (l : List α) (e : ε) :
    b.upsert l e =
      if l.findIdx (fun a => b.keyOf a = b.key e) < l.length then
        l.modify (l.findIdx fun a => b.keyOf a = b.key e) (b.update · e)
      else l ++ [b.create e] := by
  induction l with
  | nil => simp [upsert]
  | cons a l ih =>
    rw [upsert]
    by_cases h : b.keyOf a = b.key e
    · simp [h, List.findIdx_cons]
    · rw [if_neg h, ih]
      simp only [List.findIdx_cons, h, decide_false, cond_false, List.length_cons,
        Nat.add_lt_add_iff_right, List.modify_succ_cons]
      split_ifs <;> simp

/-- An event whose key is known updates the entry of that key. -/
theorem upsert_of_getElem? {l : List α} (hl : (l.map b.keyOf).Nodup) {i : ℕ} {a : α} {e : ε}
    (hi : l[i]? = some a) (hk : b.keyOf a = b.key e) :
    b.upsert l e = l.modify i (b.update · e) := by
  induction l generalizing i with
  | nil => simp at hi
  | cons c l ih =>
    rw [List.map_cons, List.nodup_cons] at hl
    rw [upsert]
    cases i with
    | zero =>
      rw [List.getElem?_cons_zero, Option.some.injEq] at hi
      rw [hi, if_pos hk, List.modify_zero_cons]
    | succ i =>
      rw [List.getElem?_cons_succ] at hi
      have hmem : b.keyOf a ∈ l.map b.keyOf := List.mem_map_of_mem (List.mem_of_getElem? hi)
      rw [if_neg fun hc => hl.1 (by rwa [hc, ← hk]), ih hl.2 hi, List.modify_succ_cons]

/-- An event whose key is new appends an entry. -/
theorem upsert_of_notMem {l : List α} {e : ε} (h : b.key e ∉ l.map b.keyOf) :
    b.upsert l e = l ++ [b.create e] := by
  induction l with
  | nil => rfl
  | cons a l ih =>
    rw [List.map_cons, List.mem_cons, not_or] at h
    rw [upsert, if_neg (Ne.symm h.1), ih h.2, List.cons_append]

/-! ## Histories -/

theorem eventsOf_append_singleton (h : List ε) (e : ε) (k : κ) :
    b.eventsOf (h ++ [e]) k = b.eventsOf h k ++ if b.key e = k then [e] else [] := by
  rw [eventsOf, List.filter_append]
  congr 1
  by_cases hk : b.key e = k <;> simp [hk]

omit [DecidableEq κ] in
theorem replay_append_singleton (es : List ε) (e : ε) :
    b.replay (es ++ [e]) = some ((b.replay es).elim (b.create e) (b.update · e)) := by
  cases es <;> simp [replay, List.foldl_append]

theorem entryOf_append_of_ne {h : List ε} {e : ε} {k : κ} (hk : b.key e ≠ k) :
    b.entryOf (h ++ [e]) k = b.entryOf h k := by
  rw [entryOf, eventsOf_append_singleton, if_neg hk, List.append_nil, entryOf]

theorem entryOf_append_self (h : List ε) (e : ε) :
    b.entryOf (h ++ [e]) (b.key e) =
      some ((b.entryOf h (b.key e)).elim (b.create e) (b.update · e)) := by
  rw [entryOf, eventsOf_append_singleton, if_pos rfl, replay_append_singleton, entryOf]

theorem entryOf_eq_none {h : List ε} {k : κ} (hk : k ∉ h.map b.key) : b.entryOf h k = none := by
  have : b.eventsOf h k = [] := by
    rw [eventsOf, List.filter_eq_nil_iff]
    intro e he
    simp only [decide_eq_true_eq]
    rintro rfl
    exact hk (List.mem_map_of_mem he)
  rw [entryOf, this, replay]

theorem keys_foldl_upsert (h : List ε) :
    (h.foldl b.upsert []).map b.keyOf = order (h.map b.key) := by
  induction h using List.reverseRecOn with
  | nil => rfl
  | append_singleton h e ih =>
    rw [List.foldl_append, List.foldl_cons, List.foldl_nil, keys_upsert, ih, List.map_append,
      List.map_cons, List.map_nil, order_append_singleton]

theorem entryOf_of_mem_foldl (h : List ε) :
    ∀ a ∈ h.foldl b.upsert [], b.entryOf h (b.keyOf a) = some a := by
  induction h using List.reverseRecOn with
  | nil => simp
  | append_singleton h e ih =>
    intro a ha
    rw [List.foldl_append, List.foldl_cons, List.foldl_nil] at ha
    have hnodup : ((h.foldl b.upsert []).map b.keyOf).Nodup := by
      rw [keys_foldl_upsert]
      exact nodup_order _
    rcases b.mem_upsert hnodup ha with ⟨hk, ha⟩ | ⟨a', ha', hk, rfl⟩ | ⟨hk, rfl⟩
    · rw [b.entryOf_append_of_ne hk.symm, ih a ha]
    · rw [b.keyOf_update, hk, entryOf_append_self, ← hk, ih a' ha']
      rfl
    · have hnew : b.key e ∉ h.map b.key := by
        rwa [keys_foldl_upsert, mem_order] at hk
      rw [b.keyOf_create, entryOf_append_self, b.entryOf_eq_none hnew]
      rfl

end KeyedLog
