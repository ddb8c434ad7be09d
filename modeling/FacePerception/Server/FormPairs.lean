import FacePerception.Server.FormData

/-!
# Form data with more than two pairs

`get_string` (`server/server_http.h`, lines 54–79) ends the name at a `'&'`, but takes all
that follows the second `'='` for the id. `find_id` (lines 94–106) looks the two up as they
are.

* `getString_query`: what is read of form data with any number of pairs.
* `readsFirstTwo_iff`: when it is the first two values.
-/

namespace FacePerception.Server

open CString

/-- A key or a value, of any bytes that do not delimit it. -/
def Undelimited (s : Bytes) : Prop := ∀ c ∈ s, c ≠ NUL ∧ c ≠ ch '=' ∧ c ≠ ch '&'

instance decidableUndelimited (s : Bytes) : Decidable (Undelimited s) :=
  List.decidableBAll (fun c => c ≠ NUL ∧ c ≠ ch '=' ∧ c ≠ ch '&') s

/-- A key and its value, which may be empty. -/
structure Pair where
  key : Bytes
  value : Bytes
  key_ne_nil : key ≠ []
  key_undelimited : Undelimited key
  value_undelimited : Undelimited value

/-- `k=v`. -/
def Pair.text (p : Pair) : Bytes := p.key ++ ch '=' :: p.value

/-- `&k=v` for each pair. -/
def furtherPairs (ps : List Pair) : Bytes := ps.flatMap fun p => ch '&' :: p.text

/-- `k₁=v₁&k₂=v₂&…`. -/
def pairsQuery : List Pair → Bytes
  | [] => []
  | p :: ps => p.text ++ furtherPairs ps

/-- `get_string` finds the first two values. -/
def ReadsFirstTwo (p₁ p₂ : Pair) (ps : List Pair) : Prop :=
  getString (pairsQuery (p₁ :: p₂ :: ps)) = (p₁.value, p₂.value)

theorem nul_notMem_furtherPairs (ps : List Pair) : NUL ∉ furtherPairs ps := by
  rw [furtherPairs, List.mem_flatMap]
  rintro ⟨p, -, hmem⟩
  rcases List.mem_cons.mp hmem with hamp | hmem
  · exact absurd hamp (by decide)
  · rcases List.mem_append.mp hmem with hkey | hmem
    · exact (p.key_undelimited NUL hkey).1 rfl
    · rcases List.mem_cons.mp hmem with heq | hvalue
      · exact absurd heq (by decide)
      · exact (p.value_undelimited NUL hvalue).1 rfl

/-- A loop that looks for a `'='` stops in front of the value. -/
theorem skipEq_text {k : Bytes} (hk : Undelimited k) (rest : Bytes) :
    skipEq (k ++ ch '=' :: rest) = rest :=
  skipEq_append (fun c hc => ⟨(hk c hc).2.1, (hk c hc).1⟩) rest

/-- And so it does from the `'&'` before the key. -/
theorem skipEq_amp_text {k : Bytes} (hk : Undelimited k) (rest : Bytes) :
    skipEq (ch '&' :: (k ++ ch '=' :: rest)) = rest := by
  refine skipEq_append (k := ch '&' :: k) ?_ rest
  rw [List.forall_mem_cons]
  exact ⟨by decide, fun c hc => ⟨(hk c hc).2.1, (hk c hc).1⟩⟩

/-- **What `get_string` reads of form data**: the id goes on over all further pairs. -/
theorem getString_query (p₁ p₂ : Pair) (ps : List Pair) :
    getString (pairsQuery (p₁ :: p₂ :: ps)) = (p₁.value, p₂.value ++ furtherPairs ps) := by
  have hquery : pairsQuery (p₁ :: p₂ :: ps) =
      p₁.key ++ ch '=' :: (p₁.value ++ ch '&' ::
        (p₂.key ++ ch '=' :: (p₂.value ++ furtherPairs ps))) := by
    simp [pairsQuery, furtherPairs, Pair.text]
  obtain ⟨htake, hdrop⟩ := takeWhile_nameByte (v := p₁.value)
    (fun c hc => ⟨(p₁.value_undelimited c hc).2.2, (p₁.value_undelimited c hc).1⟩)
    (p₂.key ++ ch '=' :: (p₂.value ++ furtherPairs ps))
  have hnul : NUL ∉ p₂.value ++ furtherPairs ps := by
    rw [List.mem_append, not_or]
    exact ⟨fun h => (p₂.value_undelimited NUL h).1 rfl, nul_notMem_furtherPairs ps⟩
  rw [hquery, getString_eq, skipEq_text p₁.key_undelimited, htake, hdrop,
    skipEq_amp_text p₂.key_undelimited, cstr_eq_self hnul]

/-- **The first two values are read iff there are no other pairs.** -/
theorem readsFirstTwo_iff (p₁ p₂ : Pair) (ps : List Pair) :
    ReadsFirstTwo p₁ p₂ ps ↔ ps = [] := by
  rw [ReadsFirstTwo, getString_query, Prod.mk.injEq, and_iff_right rfl,
    List.append_right_eq_self]
  cases ps with
  | nil => exact iff_of_true rfl rfl
  | cons p ps => exact iff_of_false (List.cons_ne_nil _ _) (List.cons_ne_nil _ _)

/-- A third pair becomes part of the number. -/
theorem not_readsFirstTwo_three :
    ¬ ReadsFirstTwo
        ⟨bytes "name", bytes "ann", by decide, by decide, by decide⟩
        ⟨bytes "id", bytes "7", by decide, by decide, by decide⟩
        [⟨bytes "day", bytes "1", by decide, by decide, by decide⟩] ∧
      getString (bytes "name=ann&id=7&day=1") = (bytes "ann", bytes "7&day=1") := by
  refine ⟨fun h => ?_, by decide⟩
  unfold ReadsFirstTwo at h
  exact absurd h (by decide)

end FacePerception.Server
