import FacePerception.Client.GetStr
import FacePerception.Epoll.Drain

/-!
# What is typed is shown

The client (`client/client.cpp`) and `epoll_et` without `DEBUG` (`server/server.h`, lines
327–356) together: each line that is typed is sent with a `'\0'` for its newline, and what a
`recv` has got is printed up to its first `'\0'`. What TCP makes of the messages in between is
any run of `Drain`.

Results:
* `cstr_eq_filter_iff`: when `cout << buf` prints all the text in a chunk.
* `typed_shown`: when all that is typed is shown, and that it is where the client waits until
  a line is read.
-/

namespace FacePerception.Epoll.Drain

open CString Runs
open Client (TypedLine Quits)

/-! ## A chunk -/

/-- A text, and nothing but `'\0'`s behind it. -/
def Clean (bs : Bytes) : Prop := ∃ text n, NUL ∉ text ∧ bs = text ++ List.replicate n NUL

theorem filter_of_nul_notMem {bs : Bytes} (h : NUL ∉ bs) : bs.filter (· ≠ NUL) = bs :=
  List.filter_eq_self.mpr fun c hc => by simpa using ne_of_mem_of_not_mem hc h

theorem filter_eq_cstr_append (bs : Bytes) :
    bs.filter (· ≠ NUL) = cstr bs ++ (bs.dropWhile (· ≠ NUL)).filter (· ≠ NUL) := by
  have hsplit : cstr bs ++ bs.dropWhile (· ≠ NUL) = bs := List.takeWhile_append_dropWhile
  have hfilter := congrArg (List.filter (· ≠ NUL)) hsplit
  rw [List.filter_append, filter_of_nul_notMem (nul_notMem_cstr bs)] at hfilter
  exact hfilter.symm

/-- All the text in a chunk is printed iff the chunk is clean. -/
theorem cstr_eq_filter_iff (bs : Bytes) : cstr bs = bs.filter (· ≠ NUL) ↔ Clean bs := by
  constructor
  · intro h
    rw [filter_eq_cstr_append, List.self_eq_append_right, List.filter_eq_nil_iff] at h
    refine ⟨cstr bs, (bs.dropWhile (· ≠ NUL)).length, nul_notMem_cstr bs, ?_⟩
    have hrest : bs.dropWhile (· ≠ NUL) =
        List.replicate (bs.dropWhile (· ≠ NUL)).length NUL :=
      List.eq_replicate_of_mem fun c hc => by simpa using h c hc
    rw [← hrest]
    exact List.takeWhile_append_dropWhile.symm
  · rintro ⟨text, n, htext, rfl⟩
    rw [List.filter_append, filter_of_nul_notMem htext, List.filter_replicate, cstr_append htext]
    cases n with
    | zero => rfl
    | succ n => simp [cstr, List.replicate_succ]

theorem cstr_prefix_filter (bs : Bytes) : cstr bs <+: bs.filter (· ≠ NUL) :=
  ⟨_, (filter_eq_cstr_append bs).symm⟩

theorem clean_of_dropLast {bs : Bytes} (h : NUL ∉ bs.dropLast) : Clean bs := by
  rcases List.eq_nil_or_concat bs with rfl | ⟨text, c, rfl⟩
  · exact ⟨[], 0, List.not_mem_nil, rfl⟩
  · rw [List.concat_eq_append, List.dropLast_concat] at h
    rw [List.concat_eq_append]
    by_cases hc : c = NUL
    · exact ⟨text, 1, h, by rw [hc]; rfl⟩
    · exact ⟨text ++ [c], 0, by simp [h, Ne.symm hc], (List.append_nil _).symm⟩

/-! ## The chunks of a run -/

/-- The step is a `recv` that gets something on the connection `c`. -/
def Reads (c : ℕ) (s : State) (m : Move) : Prop :=
  m = .serve ∧ s.reading = some c ∧ (s.conns c).buffer ≠ []

/-- What a `recv` on the connection `c` gets is a text and no more. -/
def TakesText (c : ℕ) (s : State) (m : Move) : Prop :=
  Reads c s m → Clean ((s.conns c).buffer.take (BUF_SIZE - 1))

/-- Data comes from the client of `c` when all but a part of one line is read. -/
def Patient (c : ℕ) (s : State) (m : Move) : Prop :=
  ∀ bs, m = .arrives c (.data bs) → NUL ∉ ((s.conns c).buffer ++ bs).dropLast

theorem conns_accept (s : State) : s.accept.conns = s.conns := by
  unfold State.accept
  split
  · rfl
  · dsimp only
    split_ifs <;> rfl

theorem conns_wake (s : State) (c : ℕ) : (s.wake c).conns = s.conns := by
  unfold State.wake
  split_ifs <;> rfl

/-- What a step can make of the connection `k`. -/
inductive Becomes (c : ℕ) (s : State) (m : Move) (k : Conn) : Conn → Prop
  | same (hnot : ¬ Reads c s m) : Becomes c s m k k
  | arrive {a : Arrival} (hm : m = .arrives c a) : Becomes c s m k (k.arrive a)
  | read (hreads : Reads c s m) : Becomes c s m k k.read
  | close (hnot : ¬ Reads c s m) : Becomes c s m k k.close

theorem becomes_recv {s : State} {c d : ℕ} (hreading : s.reading = some d) :
    Becomes c s .serve (s.conns c) ((s.recv d).conns c) := by
  unfold State.recv
  dsimp only
  by_cases hdc : c = d
  · subst hdc
    split_ifs with hbuffer hgoing
    · dsimp only
      rw [Function.update_self]
      exact .read ⟨rfl, hreading, hbuffer⟩
    · exact .same fun hreads => hbuffer hreads.2.2
    · dsimp only
      rw [Function.update_self]
      exact .close fun hreads => hbuffer hreads.2.2
  · have hnot : ¬ Reads c s .serve := fun hreads =>
      hdc (Option.some.inj (hreads.2.1.symm.trans hreading))
    split_ifs
    · dsimp only
      rw [Function.update_of_ne hdc]
      exact .same hnot
    · exact .same hnot
    · dsimp only
      rw [Function.update_of_ne hdc]
      exact .same hnot

theorem not_reads_of_none {s : State} {c : ℕ} {m : Move} (h : s.reading = none) :
    ¬ Reads c s m := by
  rintro ⟨-, hsome, -⟩
  rw [h] at hsome
  cases hsome

theorem becomes_step (s : State) (m : Move) (c : ℕ) :
    Becomes c s m (s.conns c) ((step s m).conns c) := by
  cases m with
  | connects => exact .same fun hreads => by cases hreads.1
  | arrives d a =>
    have hnot : ¬ Reads c s (.arrives d a) := fun hreads => by cases hreads.1
    simp only [step, State.arrives]
    split_ifs with hd
    · rw [conns_wake]
      dsimp only
      by_cases hdc : c = d
      · subst hdc
        rw [Function.update_self]
        exact .arrive rfl
      · rw [Function.update_of_ne hdc]
        exact .same hnot
    · exact .same hnot
  | serve =>
    show Becomes c s .serve (s.conns c) ((serve s).conns c)
    unfold serve
    split
    case h_1 d _ hreading => exact becomes_recv hreading
    case h_2 hreading _ =>
      rw [conns_accept]
      exact .same (not_reads_of_none hreading)
    case h_3 hreading _ => exact .same (not_reads_of_none hreading)
    case h_4 hreading _ => exact .same (not_reads_of_none hreading)

theorem chunks_arrive (k : Conn) (a : Arrival) : (k.arrive a).chunks = k.chunks := by
  unfold Conn.arrive
  split <;> first | rfl | (split_ifs <;> rfl)

/-- All chunks of a run are clean iff each `recv` takes a text. -/
theorem clean_chunks_iff (moves : List Move) (c : ℕ) :
    (∀ chunk ∈ ((moves.foldl step init).conns c).chunks, Clean chunk) ↔
      Along step (TakesText c) init moves := by
  induction moves using List.reverseRecOn with
  | nil => simp [init, Along]
  | append_singleton moves m ih =>
    rw [along_append, ← ih, List.foldl_append, List.foldl_cons, List.foldl_nil]
    generalize moves.foldl step init = s
    have hbecomes := becomes_step s m c
    generalize (step s m).conns c = k at hbecomes ⊢
    have hskip : ¬ Reads c s m → Along step (TakesText c) s [m] :=
      fun hnot => ⟨fun hreads => absurd hreads hnot, trivial⟩
    cases hbecomes with
    | same hnot => exact ⟨fun h => ⟨h, hskip hnot⟩, And.left⟩
    | close hnot => exact ⟨fun h => ⟨h, hskip hnot⟩, And.left⟩
    | arrive hm =>
      rw [chunks_arrive]
      have hnot : ¬ Reads c s m := by
        rintro ⟨rfl, -⟩
        cases hm
      exact ⟨fun h => ⟨h, hskip hnot⟩, And.left⟩
    | read hreads =>
      simp only [Conn.read, List.forall_mem_append, List.forall_mem_singleton]
      refine and_congr_right fun _ => ⟨fun h => ⟨fun _ => h, trivial⟩, fun h => h.1 hreads⟩

/-! ## Clients that wait -/

theorem nul_notMem_dropLast_take {bs : Bytes} (h : NUL ∉ bs.dropLast) (n : ℕ) :
    NUL ∉ (bs.take n).dropLast := by
  intro hmem
  rw [List.dropLast_eq_take, List.take_take] at hmem
  rw [List.dropLast_eq_take] at h
  refine h (List.take_subset_take_left bs ?_ hmem)
  rw [List.length_take]
  omega

theorem nul_notMem_dropLast_drop {bs : Bytes} (h : NUL ∉ bs.dropLast) (n : ℕ) :
    NUL ∉ (bs.drop n).dropLast := by
  by_cases hnil : bs.drop n = []
  · rw [hnil]
    exact List.not_mem_nil
  · rw [← List.take_append_drop n bs, List.dropLast_append_of_ne_nil hnil] at h
    exact fun hmem => h (List.mem_append_right _ hmem)

/-- What is unread is a part of one line. -/
theorem patient_step {s : State} {m : Move} {c : ℕ} (h : NUL ∉ (s.conns c).buffer.dropLast)
    (hpatient : Patient c s m) : NUL ∉ ((step s m).conns c).buffer.dropLast := by
  have hbecomes := becomes_step s m c
  generalize (step s m).conns c = k at hbecomes ⊢
  cases hbecomes with
  | same hnot => exact h
  | close hnot => exact h
  | read hreads => exact nul_notMem_dropLast_drop h _
  | @arrive a hm =>
    cases a with
    | data bs =>
      unfold Conn.arrive
      split_ifs
      · exact hpatient bs hm
      · exact h
    | fin =>
      unfold Conn.arrive
      split_ifs <;> exact h
    | rst => exact h

theorem takesText_of_patient {moves : List Move} {c : ℕ} (h : Along step (Patient c) init moves) :
    Along step (TakesText c) init moves :=
  along_of_inv (fun s => NUL ∉ (s.conns c).buffer.dropLast) (fun _ _ => patient_step)
    (fun _ _ hs _ _ => clean_of_dropLast (nul_notMem_dropLast_take hs _)) moves init
    List.not_mem_nil h

/-! ## From the client to the console -/

/-- The lines up to one that makes the client leave its loop. -/
def untilQuit (ls : List Bytes) : List Bytes := ls.takeWhile fun l => ¬ Quits l

theorem filter_sent {ls : List Bytes} (hls : ∀ l ∈ ls, TypedLine l) :
    (Client.sent ls).filter (· ≠ NUL) = (untilQuit ls).flatten := by
  induction ls with
  | nil => rfl
  | cons l ls ih =>
    rw [List.forall_mem_cons] at hls
    rw [Client.sent_cons hls.1, untilQuit, List.takeWhile_cons]
    by_cases hquit : Quits l
    · simp [hquit]
    · rw [if_neg hquit, if_pos (decide_eq_true hquit), List.flatten_cons, List.filter_append,
        filter_of_nul_notMem hls.1.nul, List.filter_cons_of_neg (by simp), ih hls.2]
      rfl

/-- **What is typed is shown.** When the server rests, what it has printed of an accepted
connection are the lines that were typed into its client, in their order, iff no `recv` has
taken a byte of a line together with the `'\0'` of an earlier one; and so it is where the
client's data always comes when all but a part of one line is read. -/
theorem typed_shown {moves : List Move} {c : ℕ} {ls : List Bytes} (hls : ∀ l ∈ ls, TypedLine l)
    (hidle : Idle (moves.foldl step init)) (hc : c ∈ (moves.foldl step init).accepted)
    (hsent : ((moves.foldl step init).conns c).sent = Client.sent ls) :
    (((moves.foldl step init).conns c).text = (untilQuit ls).flatten ↔
      Along step (TakesText c) init moves) ∧
    (Along step (Patient c) init moves →
      ((moves.foldl step init).conns c).text = (untilQuit ls).flatten) := by
  have hinv := inv_run moves
  have hwhole := (hinv.kept c).whole
  rw [(buffer_of_idle hinv hidle hc).2, List.append_nil, hsent] at hwhole
  have hiff : ((moves.foldl step init).conns c).text = (untilQuit ls).flatten ↔
      Along step (TakesText c) init moves := by
    rw [← clean_chunks_iff, ← filter_sent hls, ← hwhole, List.filter_flatten, Conn.text,
      flatten_map_eq_iff cstr_prefix_filter]
    exact forall₂_congr fun chunk _ => cstr_eq_filter_iff chunk
  exact ⟨hiff, fun hpatient => hiff.mpr (takesText_of_patient hpatient)⟩

/-- A client connects, and `hi` is typed into it when it is accepted. -/
def saysHi : List Move :=
  [.connects, .serve, .serve, .arrives 0 (.data (bytes "hi" ++ [NUL])), .serve, .serve, .serve,
    .serve]

theorem typed_shown_example :
    ((saysHi.foldl step init).conns 0).text = bytes "hi" := by
  have hls : ∀ l ∈ [bytes "hi"], TypedLine l := by
    intro l hl
    rw [List.mem_singleton.mp hl]
    exact ⟨by decide, by decide, by decide, by decide⟩
  have hpatient : Along step (Patient 0) init saysHi := by
    refine ⟨?_, ?_, ?_, ?_, ?_, ?_, ?_, ?_, trivial⟩ <;> rintro bs ⟨⟩
    decide
  have hidle : Idle (saysHi.foldl step init) := ⟨rfl, rfl, rfl⟩
  have haccepted : 0 ∈ (saysHi.foldl step init).accepted := by decide
  exact ((typed_shown hls hidle haccepted (by decide +kernel)).2 hpatient).trans (by decide)

end FacePerception.Epoll.Drain
