import Mathlib.Data.Finset.Card
import Mathlib.Data.List.Range

/-!
# The descriptors of a process

A process has `limit` descriptors; a call that opens something gets the lowest that is free.

* `lowest_isSome_iff`: there is one as long as any is free.
* `free_gets_closed`: how many are free when some have been opened and some closed.
* `Holds.take`, `Holds.release`: whoever shares a table, no two hold the same descriptor.
-/

structure FdTable where
  limit : ℕ
  used : Finset ℕ
  used_lt : ∀ fd ∈ used, fd < limit

namespace FdTable

variable {t : FdTable} {fd : ℕ}

/-- How many descriptors are free. -/
def free (t : FdTable) : ℕ := t.limit - t.used.card

/-- The descriptor that the next call gets. -/
def lowest (t : FdTable) : Option ℕ := (List.range t.limit).find? (· ∉ t.used)

/-- `fd` is opened. -/
def take (t : FdTable) (fd : ℕ) : FdTable where
  limit := t.limit
  used := if fd < t.limit then insert fd t.used else t.used
  used_lt := by
    intro fd' h
    split_ifs at h with hlt
    · rcases Finset.mem_insert.mp h with rfl | h
      · exact hlt
      · exact t.used_lt fd' h
    · exact t.used_lt fd' h

/-- `fd` is closed. -/
def release (t : FdTable) (fd : ℕ) : FdTable where
  limit := t.limit
  used := t.used.erase fd
  used_lt := fun fd' h => t.used_lt fd' (Finset.mem_of_mem_erase h)

/-- The lowest descriptor is taken, if there is one. -/
def takeLowest (t : FdTable) : FdTable :=
  match t.lowest with
  | none => t
  | some fd => t.take fd

/-- The two descriptors that `pipe` gets. -/
def lowestTwo (t : FdTable) : Option (ℕ × ℕ) :=
  match t.lowest, t.takeLowest.lowest with
  | some r, some w => some (r, w)
  | _, _ => none

/-! ## How many are free -/

theorem card_le_limit (t : FdTable) : t.used.card ≤ t.limit := by
  have hsub : t.used ⊆ Finset.range t.limit := fun fd h => Finset.mem_range.mpr (t.used_lt fd h)
  simpa using Finset.card_le_card hsub

theorem lowest_eq_some (h : t.lowest = some fd) : fd < t.limit ∧ fd ∉ t.used :=
  ⟨List.mem_range.mp (List.mem_of_find?_eq_some h), by simpa using List.find?_some h⟩

theorem lowest_isSome_iff (t : FdTable) : t.lowest.isSome ↔ 0 < t.free := by
  have hcard := t.card_le_limit
  rw [lowest, List.find?_isSome]
  constructor
  · rintro ⟨fd, hfd, hnot⟩
    have hlt : (insert fd t.used).card ≤ t.limit := by
      have hsub : insert fd t.used ⊆ Finset.range t.limit := by
        rw [Finset.insert_subset_iff]
        exact ⟨Finset.mem_range.mpr (List.mem_range.mp hfd),
          fun fd' h => Finset.mem_range.mpr (t.used_lt fd' h)⟩
      simpa using Finset.card_le_card hsub
    rw [Finset.card_insert_of_notMem (by simpa using hnot)] at hlt
    rw [free]
    omega
  · intro hpos
    rw [free] at hpos
    -- otherwise all of them are in use
    by_contra hnone
    have hsub : Finset.range t.limit ⊆ t.used := by
      intro fd hfd
      by_contra hnot
      exact hnone ⟨fd, List.mem_range.mpr (Finset.mem_range.mp hfd), by simpa using hnot⟩
    have hle := Finset.card_le_card hsub
    rw [Finset.card_range] at hle
    omega

theorem mem_take (hlt : fd < t.limit) {fd' : ℕ} :
    fd' ∈ (t.take fd).used ↔ fd' = fd ∨ fd' ∈ t.used := by
  rw [take]
  dsimp only
  rw [if_pos hlt, Finset.mem_insert]

theorem mem_release {fd' : ℕ} : fd' ∈ (t.release fd).used ↔ fd' ≠ fd ∧ fd' ∈ t.used :=
  Finset.mem_erase

theorem free_take (hlt : fd < t.limit) (hnot : fd ∉ t.used) : (t.take fd).free + 1 = t.free := by
  have hcard := (t.take fd).card_le_limit
  unfold free take at *
  dsimp only at *
  rw [if_pos hlt, Finset.card_insert_of_notMem hnot] at *
  omega

theorem free_release (hmem : fd ∈ t.used) : (t.release fd).free = t.free + 1 := by
  have hcard := t.card_le_limit
  have hpos := Finset.card_pos.mpr ⟨fd, hmem⟩
  unfold free release
  dsimp only
  rw [Finset.card_erase_of_mem hmem]
  omega

theorem free_takeLowest (t : FdTable) : t.takeLowest.free = t.free - 1 := by
  unfold takeLowest
  cases h : t.lowest with
  | none =>
    have hnone : ¬ 0 < t.free := by
      rw [← lowest_isSome_iff, h]
      simp
    dsimp only
    omega
  | some fd =>
    obtain ⟨hlt, hnot⟩ := lowest_eq_some h
    have := free_take hlt hnot
    dsimp only
    omega

theorem lowestTwo_isSome_iff (t : FdTable) : t.lowestTwo.isSome ↔ 2 ≤ t.free := by
  have hfirst := t.lowest_isSome_iff
  have hsecond := t.takeLowest.lowest_isSome_iff
  rw [free_takeLowest] at hsecond
  unfold lowestTwo
  cases h : t.lowest with
  | none =>
    rw [h] at hfirst
    simp only [Option.isSome_none, Bool.false_eq_true, false_iff] at hfirst ⊢
    omega
  | some r =>
    cases h' : t.takeLowest.lowest with
    | none =>
      rw [h'] at hsecond
      simp only [Option.isSome_none, Bool.false_eq_true, false_iff] at hsecond ⊢
      omega
    | some w =>
      rw [h'] at hsecond
      simp only [Option.isSome_some, true_iff] at hsecond ⊢
      omega

theorem not_lowest_none (h : 0 < t.free) : t.lowest ≠ none :=
  Option.isSome_iff_ne_none.mp (t.lowest_isSome_iff.mpr h)

theorem not_lowestTwo_none (h : 2 ≤ t.free) : t.lowestTwo ≠ none :=
  Option.isSome_iff_ne_none.mp (t.lowestTwo_isSome_iff.mpr h)

theorem exists_lowest (h : 0 < t.free) :
    ∃ fd, t.lowest = some fd ∧ (t.take fd).free + 1 = t.free := by
  obtain ⟨fd, hfd⟩ := Option.ne_none_iff_exists'.mp (not_lowest_none h)
  exact ⟨fd, hfd, free_take (lowest_eq_some hfd).1 (lowest_eq_some hfd).2⟩

theorem lowest_eq_none (h : t.free = 0) : t.lowest = none := by
  rw [← Option.not_isSome_iff_eq_none, lowest_isSome_iff]
  omega

theorem exists_lowestTwo (h : 2 ≤ t.free) :
    ∃ fds, t.lowestTwo = some fds ∧ t.takeLowest.takeLowest.free + 2 = t.free := by
  obtain ⟨fds, hfds⟩ := Option.ne_none_iff_exists'.mp (not_lowestTwo_none h)
  exact ⟨fds, hfds, by rw [free_takeLowest, free_takeLowest]; omega⟩

theorem lowestTwo_eq_none (h : t.free < 2) : t.lowestTwo = none := by
  rw [← Option.not_isSome_iff_eq_none, lowestTwo_isSome_iff]
  omega

/-! ## Opening and closing -/

inductive Op
  | opened (fd : ℕ)
  | closed (fd : ℕ)

def Op.isOpened : Op → Bool
  | .opened _ => true
  | .closed _ => false

def apply (t : FdTable) : Op → FdTable
  | .opened fd => t.take fd
  | .closed fd => t.release fd

/-- The table when `ops` are done. -/
def replay (t : FdTable) (ops : List Op) : FdTable := ops.foldl apply t

/-- What is opened was free, and what is closed was open. -/
def Follows : FdTable → List Op → Prop
  | _, [] => True
  | t, .opened fd :: ops => fd < t.limit ∧ fd ∉ t.used ∧ Follows (t.take fd) ops
  | t, .closed fd :: ops => fd ∈ t.used ∧ Follows (t.release fd) ops

theorem follows_append {t : FdTable} {ops ops' : List Op} :
    Follows t (ops ++ ops') ↔ Follows t ops ∧ Follows (t.replay ops) ops' := by
  induction ops generalizing t with
  | nil => simp [Follows, replay]
  | cons op ops ih =>
    cases op with
    | opened fd =>
      simp only [List.cons_append, Follows, ih, replay, List.foldl_cons, apply, and_assoc]
    | closed fd =>
      simp only [List.cons_append, Follows, ih, replay, List.foldl_cons, apply, and_assoc]

/-- How many are free after that. -/
theorem free_replay {ops : List Op} (h : Follows t ops) :
    (t.replay ops).free + ops.countP Op.isOpened =
      t.free + ops.countP fun op => !op.isOpened := by
  induction ops generalizing t with
  | nil => rfl
  | cons op ops ih =>
    cases op with
    | opened fd =>
      obtain ⟨hlt, hnot, hops⟩ := h
      have hrest := ih hops
      have htake := free_take hlt hnot
      simp only [replay, List.foldl_cons, apply, List.countP_cons, Op.isOpened] at hrest ⊢
      simp only [if_true, Bool.not_true, Bool.false_eq_true, if_false]
      omega
    | closed fd =>
      obtain ⟨hmem, hops⟩ := h
      have hrest := ih hops
      have hrelease := free_release hmem
      simp only [replay, List.foldl_cons, apply, List.countP_cons, Op.isOpened] at hrest ⊢
      simp only [Bool.not_false, Bool.false_eq_true, if_true, if_false]
      omega

theorem mem_take_of_mem (h : fd ∈ t.used) (fd' : ℕ) : fd ∈ (t.take fd').used := by
  rw [take]
  dsimp only
  split_ifs
  · exact Finset.mem_insert_of_mem h
  · exact h

/-- A descriptor that is not closed stays open. -/
theorem mem_replay {ops : List Op} (h : fd ∈ t.used) (hops : .closed fd ∉ ops) :
    fd ∈ (t.replay ops).used := by
  induction ops generalizing t with
  | nil => exact h
  | cons op ops ih =>
    rw [List.mem_cons, not_or] at hops
    rw [replay, List.foldl_cons, ← replay]
    cases op with
    | opened fd' => exact ih (mem_take_of_mem h fd') hops.2
    | closed fd' => exact ih (mem_release.mpr ⟨fun heq => hops.1 (heq ▸ rfl), h⟩) hops.2

/-- Calls one after another get the descriptors `fds`. -/
inductive Gets : FdTable → List ℕ → Prop
  | nil {t : FdTable} : Gets t []
  | cons {t : FdTable} {fd : ℕ} {fds : List ℕ} (h : t.lowest = some fd)
    (hrest : Gets t.takeLowest fds) : Gets t (fd :: fds)

theorem takeLowest_of_some (h : t.lowest = some fd) : t.takeLowest = t.take fd := by
  rw [takeLowest, h]

theorem gets_of_lowestTwo {p : ℕ × ℕ} (h : t.lowestTwo = some p) {fds : List ℕ}
    (hrest : Gets t.takeLowest.takeLowest fds) : Gets t (p.1 :: p.2 :: fds) := by
  unfold lowestTwo at h
  split at h
  · rename_i r w hr hw
    obtain rfl := Option.some.inj h
    exact .cons hr (.cons hw hrest)
  · cases h

theorem Gets.follows {fds : List ℕ} (h : Gets t fds) : Follows t (fds.map .opened) := by
  induction h with
  | nil => trivial
  | cons h _ ih =>
    obtain ⟨hlt, hnot⟩ := lowest_eq_some h
    rw [takeLowest_of_some h] at ih
    exact ⟨hlt, hnot, ih⟩

/-- They are in use then. -/
theorem Gets.mem_replay {fds : List ℕ} (h : Gets t fds) {fd : ℕ} :
    fd ∈ (t.replay (fds.map .opened)).used ↔ fd ∈ t.used ∨ fd ∈ fds := by
  induction h with
  | nil => simp [replay]
  | cons h _ ih =>
    rw [takeLowest_of_some h] at ih
    rw [List.map_cons, replay, List.foldl_cons, ← replay, apply, ih,
      mem_take (lowest_eq_some h).1, List.mem_cons]
    tauto

/-- They are different from each other, and from those in use before. -/
theorem Gets.nodup {fds : List ℕ} (h : Gets t fds) : fds.Nodup ∧ ∀ fd ∈ fds, fd ∉ t.used := by
  induction h with
  | nil => simp
  | cons h _ ih =>
    obtain ⟨hlt, hnot⟩ := lowest_eq_some h
    rw [takeLowest_of_some h] at ih
    simp only [mem_take hlt, not_or] at ih
    refine ⟨List.nodup_cons.mpr ⟨fun hmem => (ih.2 _ hmem).1 rfl, ih.1⟩, ?_⟩
    rw [List.forall_mem_cons]
    exact ⟨hnot, fun fd hfd => (ih.2 fd hfd).2⟩

theorem follows_closed {fds : List ℕ} (hnodup : fds.Nodup) (h : ∀ fd ∈ fds, fd ∈ t.used) :
    Follows t (fds.map .closed) := by
  induction fds generalizing t with
  | nil => trivial
  | cons fd fds ih =>
    obtain ⟨hnot, hfds⟩ := List.nodup_cons.mp hnodup
    obtain ⟨hmem, hall⟩ := List.forall_mem_cons.mp h
    refine ⟨hmem, ih hfds fun fd' hfd' => mem_release.mpr ⟨?_, hall fd' hfd'⟩⟩
    rintro rfl
    exact hnot hfd'

/-- **What opening and closing leaves free.** -/
theorem free_gets_closed {fds closed : List ℕ} (h : Gets t fds) (hnodup : closed.Nodup)
    (hclosed : ∀ fd ∈ closed, fd ∈ t.used ∨ fd ∈ fds) :
    (t.replay (fds.map .opened ++ closed.map .closed)).free + fds.length =
      t.free + closed.length := by
  have hfollows : Follows t (fds.map .opened ++ closed.map .closed) :=
    follows_append.mpr ⟨h.follows, follows_closed hnodup fun fd hfd =>
      h.mem_replay.mpr (hclosed fd hfd)⟩
  have hfree := free_replay hfollows
  have hopened : ∀ l : List ℕ, (l.map Op.opened).countP Op.isOpened = l.length ∧
      (l.map Op.opened).countP (fun op => !op.isOpened) = 0 := by
    intro l
    simp [List.countP_map, List.countP_eq_length, List.countP_eq_zero, Op.isOpened]
  have hclosed : ∀ l : List ℕ, (l.map Op.closed).countP Op.isOpened = 0 ∧
      (l.map Op.closed).countP (fun op => !op.isOpened) = l.length := by
    intro l
    simp [List.countP_map, List.countP_eq_length, List.countP_eq_zero, Op.isOpened]
  rw [List.countP_append, List.countP_append, (hopened fds).1, (hopened fds).2,
    (hclosed closed).1, (hclosed closed).2] at hfree
  omega

/-! ## Who shares a table -/

/-- Those who share the table hold `fds`, and had `n` free descriptors to share. -/
structure Holds (n : ℕ) (t : FdTable) (fds : List ℕ) : Prop where
  nodup : fds.Nodup
  used : ∀ fd ∈ fds, fd ∈ t.used
  free : t.free + fds.length = n

namespace Holds

variable {n : ℕ} {fds fds' : List ℕ}

theorem perm (h : Holds n t fds) (hperm : fds.Perm fds') : Holds n t fds' where
  nodup := hperm.nodup_iff.mp h.nodup
  used := fun fd hfd => h.used fd (hperm.mem_iff.mpr hfd)
  free := by rw [← hperm.length_eq, h.free]

theorem take (h : Holds n t fds) (hlowest : t.lowest = some fd) :
    Holds n (t.take fd) (fd :: fds) := by
  obtain ⟨hlt, hnot⟩ := lowest_eq_some hlowest
  have hfree := free_take hlt hnot
  refine ⟨List.nodup_cons.mpr ⟨fun hmem => hnot (h.used fd hmem), h.nodup⟩, ?_, ?_⟩
  · intro fd' hfd'
    rw [mem_take hlt]
    exact (List.mem_cons.mp hfd').imp id (h.used fd')
  · rw [List.length_cons, ← h.free]
    omega

theorem takeLowest (h : Holds n t fds) : Holds n t.takeLowest (t.lowest.toList ++ fds) := by
  unfold FdTable.takeLowest
  cases hlowest : t.lowest with
  | none => exact h
  | some fd => exact h.take hlowest

theorem takeTwo {p : ℕ × ℕ} (h : Holds n t fds) (hp : t.lowestTwo = some p) :
    Holds n t.takeLowest.takeLowest (p.2 :: p.1 :: fds) := by
  unfold lowestTwo at hp
  split at hp
  · rename_i r w hr hw
    obtain rfl := Option.some.inj hp
    have hfirst := h.takeLowest
    rw [hr] at hfirst
    have hsecond := hfirst.takeLowest
    rw [hw] at hsecond
    exact hsecond
  · cases hp

theorem release (h : Holds n t (fd :: fds)) : Holds n (t.release fd) fds := by
  obtain ⟨hnot, hnodup⟩ := List.nodup_cons.mp h.nodup
  have hfree := free_release (h.used fd List.mem_cons_self)
  have hcount := h.free
  rw [List.length_cons] at hcount
  refine ⟨hnodup, fun fd' hfd' => mem_release.mpr ⟨?_, h.used fd' (List.mem_cons_of_mem _ hfd')⟩,
    by omega⟩
  rintro rfl
  exact hnot hfd'

end Holds

end FdTable
