import Mathlib.Data.List.TakeDrop
import FacePerception.Server.GetLine

/-!
# Where `get_line` stores

`get_line` of the two servers (`server/server_http.h`, lines 198–228, and
`server/server.h`, lines 46–71) with every index of `buf` it stores at. The two have the
same loop over different sockets, and differ in the end of a line whose last byte read
is `'\0'`.

Results:
* `getLineStores_eq`: with the stores forgotten it is `getLine`; they are the line and
  the `'\0'` behind it.
* `inBounds_iff`: the streams on which `server_http::get_line` keeps inside `buf`.
-/

namespace FacePerception.Server

open CString

/-! ## The loop, with its stores -/

/-- The variables of `get_line` on a socket of type `α`, and the stores made so far. -/
structure StoreState (α : Type) where
  i : ℕ
  ch : UInt8
  sock : α
  stores : List (ℕ × UInt8)

/-- What a call leaves behind: its stores, its result and what is left to read. -/
structure Stored (α : Type) where
  stores : List (ℕ × UInt8)
  count : ℕ
  sock : α

section Loop

variable {α : Type} (recv : UInt8 → α → ℤ × UInt8 × α) (size : ℕ)

/-- One turn of the `while` loop, where `recv` is the call that reads one byte. -/
def storeTurn (s : StoreState α) : StoreState α ⊕ StoreState α :=
  if s.i < size - 1 ∧ s.ch ≠ LF then
    let (num, ch, sock) := recv s.ch s.sock
    if ch = NUL ∨ ch = LF ∨ ch = CR then
      let (_, ch, sock) := recv ch sock
      .inl ⟨s.i, ch, sock, s.stores⟩
    else if num > 0 then .inr ⟨s.i + 1, ch, sock, s.stores ++ [(s.i, ch)]⟩
    else .inr ⟨s.i, ch, sock, s.stores⟩
  else .inl s

/-- The `'\n'` and the `'\0'` behind a line. -/
def storeLF (s : StoreState α) : Stored α :=
  ⟨s.stores ++ [(s.i, LF), (s.i + 1, NUL)], s.i + 1, s.sock⟩

/-- Lines 219–225 of `server_http.h`. -/
def storeEnd (s : StoreState α) : Stored α :=
  if s.ch = NUL then ⟨s.stores ++ [(s.i, NUL)], s.i, s.sock⟩ else storeLF s

end Loop

/-- `server_http::get_line`, with its stores. -/
def getLineStores (size : ℕ) (sock : Bytes) : Computation (Stored Bytes) :=
  storeEnd <$> Computation.corec (storeTurn recv size) ⟨0, NUL, sock, []⟩

/-- `buf` behind the stores. -/
def Stored.apply {α : Type} (r : Stored α) (buf : Bytes) : Bytes :=
  r.stores.foldl (fun buf store => buf.set store.1 store.2) buf

/-- A call keeps inside its `buf`: it returns, every index it stores at is less than
`size`, what it leaves in `buf` ends with a `'\0'`, and its result is less than `size`. -/
def InBounds {α : Type} (size : ℕ) (c : Computation (Stored α)) : Prop :=
  ∃ r ∈ c, (∀ store ∈ r.stores, store.1 < size) ∧
    (∀ buf : Bytes, buf.length = size → NUL ∈ r.apply buf) ∧ r.count ≤ size - 1

/-! ## Its stores are the line -/

/-- The stores of these bytes from the start of an array on. -/
def storesOf (w : Bytes) : List (ℕ × UInt8) := w.zipIdx.map Prod.swap

theorem storesOf_append (w v : Bytes) :
    storesOf (w ++ v) = storesOf w ++ (v.zipIdx w.length).map Prod.swap := by
  rw [storesOf, List.zipIdx_append, List.map_append, Nat.zero_add, storesOf]

theorem lt_length_of_mem_storesOf {w : Bytes} {store : ℕ × UInt8} (h : store ∈ storesOf w) :
    store.1 < w.length := by
  obtain ⟨⟨c, k⟩, hmem, rfl⟩ := List.mem_map.mp h
  exact (List.mem_zipIdx' hmem).1

/-- The stores of a string overwrite the start of the array. -/
theorem foldl_storesOf (w : Bytes) {buf : Bytes} (h : w.length ≤ buf.length) :
    (storesOf w).foldl (fun buf store => buf.set store.1 store.2) buf = w ++ buf.drop w.length := by
  induction w using List.reverseRecOn with
  | nil => rfl
  | append_singleton w c ih =>
    rw [List.length_append, List.length_singleton] at h
    rw [storesOf_append, List.foldl_append, ih (by omega)]
    show (w ++ buf.drop w.length).set w.length c = _
    rw [List.set_append_right _ _ le_rfl, Nat.sub_self, List.drop_eq_getElem_cons (by omega),
      List.set_cons_zero, List.length_append, List.length_singleton, List.append_assoc]
    rfl

/-- The loop with its stores, in terms of the loop that only keeps the line. -/
def LineState.stored (s : LineState) : StoreState Bytes :=
  ⟨s.buf.length, s.ch, s.sock, storesOf s.buf⟩

theorem storesOf_singleton_append (w : Bytes) (c : UInt8) :
    storesOf (w ++ [c]) = storesOf w ++ [(w.length, c)] := storesOf_append w [c]

theorem storeTurn_stored (size : ℕ) (s : LineState) :
    storeTurn recv size s.stored =
      Sum.map LineState.stored LineState.stored (getLineTurn size s) := by
  obtain ⟨buf, ch, sock⟩ := s
  dsimp only [storeTurn, getLineTurn, LineState.stored]
  obtain ⟨num, ch', sock'⟩ := recv ch sock
  dsimp only
  split_ifs with hgo hend hnum
  · rfl
  · rw [Sum.map_inr, LineState.stored, storesOf_singleton_append, List.length_append]
    rfl
  · rfl
  · rfl

/-- What is stored for a line, with the result of the call. -/
def storedLine (r : Bytes × Bytes) : Stored Bytes := ⟨storesOf (r.1 ++ [NUL]), r.1.length, r.2⟩

theorem storeEnd_stored (s : LineState) : storeEnd s.stored = storedLine s.finish := by
  unfold storeEnd storedLine LineState.finish endLine
  show (if s.ch = NUL then _ else _) = _
  split_ifs
  · rw [storesOf_singleton_append]
    rfl
  · rw [storesOf_singleton_append, storesOf_singleton_append, List.append_assoc,
      List.length_append]
    rfl

/-- **The stores of `get_line` are the line and the `'\0'` behind it.** -/
theorem getLineStores_eq (size : ℕ) (sock : Bytes) :
    getLineStores size sock = storedLine <$> getLine size sock := by
  have hloop := Computation.corec_map (storeTurn_stored size) ⟨[], NUL, sock⟩
  show storeEnd <$> Computation.corec _ (LineState.stored ⟨[], NUL, sock⟩) = _
  rw [hloop, getLine]
  show Computation.map _ (Computation.map _ _) = Computation.map _ (Computation.map _ _)
  rw [← Computation.map_comp, ← Computation.map_comp]
  congr 1
  funext s
  exact storeEnd_stored s

/-! ## When it keeps inside its array -/

/-- A call that stores a string with a `'\0'` in it, and at most one byte behind its
result, keeps inside `buf` iff its result does. -/
theorem stored_inBounds {α : Type} {size : ℕ} (hsize : 0 < size) {r : Stored α} {w : Bytes}
    (hstores : r.stores = storesOf w) (hnul : NUL ∈ w) (hlen : w.length ≤ r.count + 1) :
    ((∀ store ∈ r.stores, store.1 < size) ∧
        (∀ buf : Bytes, buf.length = size → NUL ∈ r.apply buf) ∧ r.count ≤ size - 1) ↔
      r.count ≤ size - 1 := by
  constructor
  · intro ⟨_, _, hcount⟩
    exact hcount
  · intro hcount
    refine ⟨fun store hmem => ?_, fun buf hbuf => ?_, hcount⟩
    · have := lt_length_of_mem_storesOf (hstores ▸ hmem)
      omega
    · rw [Stored.apply, hstores, foldl_storesOf w (by omega)]
      exact List.mem_append_left _ hnul

/-- A byte that ends a line comes before `n` others have come. -/
def EndsWithin (n : ℕ) (sock : Bytes) : Prop :=
  ∃ w t rest, sock = w ++ t :: rest ∧ w.length < n ∧ (∀ c ∈ w, Ordinary c) ∧ ¬ Ordinary t

theorem inBounds_getLineStores {size : ℕ} (hsize : 0 < size) (sock : Bytes) :
    InBounds size (getLineStores size sock) ↔
      ∃ line rest, readLine (size - 1) sock = some (line, rest) ∧ line.length ≤ size - 1 := by
  have hline : ∀ line rest, ((∀ store ∈ (storedLine (line, rest)).stores, store.1 < size) ∧
      (∀ buf : Bytes, buf.length = size → NUL ∈ (storedLine (line, rest)).apply buf) ∧
      (storedLine (line, rest)).count ≤ size - 1) ↔ line.length ≤ size - 1 :=
    fun line rest => stored_inBounds hsize (w := line ++ [NUL]) rfl
      (List.mem_append_right _ (List.mem_singleton.mpr rfl)) (List.length_append.le)
  simp only [InBounds, getLineStores_eq, Computation.mem_map_iff, Prod.exists, mem_getLine_iff]
  constructor
  · rintro ⟨_, ⟨line, rest, hread, rfl⟩, hbounds⟩
    exact ⟨line, rest, hread, (hline line rest).mp hbounds⟩
  · intro ⟨line, rest, hread, hlen⟩
    exact ⟨_, ⟨line, rest, hread, rfl⟩, (hline line rest).mpr hlen⟩

/-- **`server_http::get_line` keeps inside `buf` iff it gets to the end of a line before
`buf` is full**, or reads nothing. -/
theorem inBounds_iff {size : ℕ} (hsize : 0 < size) (sock : Bytes) :
    InBounds size (getLineStores size sock) ↔
      size = 1 ∨ sock = [] ∨ EndsWithin (size - 1) sock := by
  rw [inBounds_getLineStores hsize]
  rcases Nat.lt_or_ge 1 size with hlt | hle
  · have hn : 0 < size - 1 := by omega
    simp only [readLine_eq_some_iff hn]
    constructor
    · intro ⟨line, rest, hfirst, hlen⟩
      cases hfirst with
      | empty => exact Or.inr (Or.inl rfl)
      | full hfull hw rest =>
        rw [List.length_append, List.length_singleton] at hlen
        omega
      | ended hlt hw ht rest => exact Or.inr (Or.inr ⟨_, _, _, rfl, hlt, hw, ht⟩)
    · rintro (h1 | rfl | ⟨w, t, rest, rfl, hlt, hw, ht⟩)
      · omega
      · exact ⟨[], [], .empty, Nat.zero_le _⟩
      · refine ⟨_, _, .ended hlt hw ht rest, ?_⟩
        rw [endLine]
        split_ifs
        · omega
        · rw [List.length_append, List.length_singleton]
          omega
  · obtain rfl : size = 1 := by omega
    exact iff_of_true ⟨[], sock, rfl, Nat.zero_le _⟩ (Or.inl rfl)

end FacePerception.Server
