import FacePerception.Epoll.Edges
import FacePerception.Epoll.LevelTriggered
import FacePerception.Lib.Runs
import Mathlib.Algebra.Order.BigOperators.Group.List

/-!
# `epoll_et` reads to the end

The loop of `epoll_et` as it is compiled without `DEBUG` (`server/server.h`, lines 327–356):
for an event it calls `recv` until nothing is left, prints every chunk, and closes the socket
when the client has ended the connection. Clients connect, send and end while it does so. The
one thread of the server does a step at a time (`serve`): a call of `recv`, an event of the
batch, or `epoll_wait`.

Results:
* `inv_step`: what every step keeps, whoever takes it.
* `never_lost`: in every run no byte is lost or printed twice, no socket is closed twice, and
  a socket with something to read is going to be looked at.
* `drains`: when the clients are quiet everything they have sent is printed, and the
  connections that they have ended are closed.
-/

namespace FacePerception.Epoll.Drain

open CString Runs

/-! ## The server and its clients -/

/-- How far a client has got with its side of the connection. -/
inductive Ending
  | going
  /-- `recv` gives 0 when all is read. -/
  | shut
  /-- `recv` gives -1 when all is read, and not `EAGAIN`. -/
  | reset
deriving DecidableEq

/-- A connection: what its client has sent, what is left to read, what each `recv` has got,
and how often the server has closed it. -/
structure Conn where
  sent : Bytes
  buffer : Bytes
  chunks : List Bytes
  ending : Ending
  closed : ℕ

inductive Sock
  | listening
  | conn (c : ℕ)
deriving DecidableEq

/-- Connections are numbered in the order of their arrival, so that a descriptor that is used
again is another socket. -/
structure State where
  arrived : ℕ
  conns : ℕ → Conn
  /-- The connections that wait for `accept`, the oldest first. -/
  queue : List ℕ
  /-- Those that `accept` has returned. -/
  accepted : List ℕ
  /-- The sockets with a pending edge, in the order in which it was set. -/
  pending : List Sock
  /-- The events of the batch that `epoll_et` has not come to. -/
  batch : List Sock
  /-- The connection that the `while` loop reads from. -/
  reading : Option ℕ

/-- What comes from a client. -/
inductive Arrival
  | data (bs : Bytes)
  | fin
  | rst

inductive Move
  | connects
  | arrives (c : ℕ) (a : Arrival)
  | serve

def init : State where
  arrived := 0
  conns _ := ⟨[], [], [], .going, 0⟩
  queue := []
  accepted := []
  pending := []
  batch := []
  reading := none

/-- An edge of `x`. -/
def State.edge (s : State) (x : Sock) : State :=
  { s with pending := if x ∈ s.pending then s.pending else s.pending ++ [x] }

/-- An edge of the connection `c`, once it is registered. -/
def State.wake (s : State) (c : ℕ) : State := if c ∈ s.accepted then s.edge (.conn c) else s

def Conn.arrive (k : Conn) : Arrival → Conn
  | .data bs =>
    if k.ending = .going then { k with sent := k.sent ++ bs, buffer := k.buffer ++ bs } else k
  | .fin => if k.ending = .going then { k with ending := .shut } else k
  | .rst => { k with ending := .reset }

/-- Something comes from the client of `c`, if it is connected. -/
def State.arrives (s : State) (c : ℕ) (a : Arrival) : State :=
  if c < s.arrived ∧ (s.conns c).closed = 0 then
    { s with conns := Function.update s.conns c ((s.conns c).arrive a) }.wake c
  else s

/-- `recv` has something to tell about the connection. -/
def Conn.Readable (k : Conn) : Prop := k.closed = 0 ∧ (k.buffer ≠ [] ∨ k.ending ≠ .going)

instance decidableReadable (k : Conn) : Decidable k.Readable := instDecidableAnd

/-- `accept` (line 314), which gives -1 where no connection waits, and `addfd`: a socket that
is readable when it is registered has an edge. -/
def State.accept (s : State) : State :=
  match s.queue with
  | [] => s
  | c :: queue =>
    let s := { s with queue := queue, accepted := s.accepted ++ [c] }
    if (s.conns c).Readable then s.edge (.conn c) else s

/-- `recv(sockfd,buf,sizeof(buf)-1,0)` where there is something to read; `buf` has room for
`BUF_SIZE` bytes. -/
def Conn.read (k : Conn) : Conn :=
  { k with
    buffer := k.buffer.drop (BUF_SIZE - 1)
    chunks := k.chunks ++ [k.buffer.take (BUF_SIZE - 1)] }

/-- `close(sockfd)`. -/
def Conn.close (k : Conn) : Conn := { k with closed := k.closed + 1 }

/-- A turn of the `while` loop (lines 331–355) on the connection `c`. Closing a socket takes
it out of the epoll set. -/
def State.recv (s : State) (c : ℕ) : State :=
  let k := s.conns c
  if k.buffer ≠ [] then { s with conns := Function.update s.conns c k.read }
  else if k.ending = .going then { s with reading := none }
  else
    { s with
      conns := Function.update s.conns c k.close
      pending := s.pending.filter (· ≠ .conn c)
      reading := none }

/-- A step of the server's thread: the `while` loop goes on, or `epoll_et` comes to the next
event, or `main` calls `epoll_wait`. -/
def serve (s : State) : State :=
  match s.reading, s.batch with
  | some c, _ => s.recv c
  | none, .listening :: batch => { s with batch := batch }.accept
  | none, .conn c :: batch => { s with batch := batch, reading := some c }
  | none, [] =>
    { s with batch := s.pending.take MAX_EVENT, pending := s.pending.drop MAX_EVENT }

def step (s : State) : Move → State
  | .connects =>
    { s with arrived := s.arrived + 1, queue := s.queue ++ [s.arrived] }.edge .listening
  | .arrives c a => s.arrives c a
  | .serve => serve s

/-! ## What every step keeps -/

/-- The server is going to look at the connection. -/
def Waits (s : State) (c : ℕ) : Prop :=
  .conn c ∈ s.pending ∨ .conn c ∈ s.batch ∨ s.reading = some c

/-- What holds of each connection. -/
structure Kept (k : Conn) : Prop where
  whole : k.chunks.flatten ++ k.buffer = k.sent
  chunks : ∀ chunk ∈ k.chunks, chunk ≠ [] ∧ chunk.length ≤ BUF_SIZE - 1
  once : k.closed ≤ 1
  finished : k.closed = 1 → k.buffer = [] ∧ k.ending ≠ .going

structure Inv (s : State) : Prop where
  kept : ∀ c, Kept (s.conns c)
  watched : ∀ c ∈ s.accepted, (s.conns c).Readable → Waits s c
  live : ∀ c, Waits s c → c ∈ s.accepted ∧ (s.conns c).closed = 0
  known : ∀ c, (s.conns c).closed ≠ 0 → c ∈ s.accepted
  fresh : ∀ c ∈ s.queue, c ∉ s.accepted
  nodup : s.queue.Nodup
  arrived : ∀ c ∈ s.queue ++ s.accepted, c < s.arrived
  pending : s.pending.Nodup
  batch : s.batch.Nodup
  reading : ∀ c, s.reading = some c → .conn c ∉ s.batch

theorem Kept.arrive {k : Conn} (h : Kept k) (hopen : k.closed = 0) (a : Arrival) :
    Kept (k.arrive a) := by
  cases a with
  | data bs =>
    unfold Conn.arrive
    split_ifs
    · refine ⟨?_, h.chunks, h.once, fun hclosed => ?_⟩
      · dsimp only
        rw [← List.append_assoc, h.whole]
      · rw [hopen] at hclosed
        cases hclosed
    · exact h
  | fin =>
    unfold Conn.arrive
    split_ifs
    · exact ⟨h.whole, h.chunks, h.once, fun hclosed => ⟨(h.finished hclosed).1, by simp⟩⟩
    · exact h
  | rst =>
    refine ⟨h.whole, h.chunks, h.once, fun hclosed => ⟨(h.finished hclosed).1, ?_⟩⟩
    simp [Conn.arrive]

@[simp] theorem closed_arrive (k : Conn) (a : Arrival) : (k.arrive a).closed = k.closed := by
  cases a with
  | data bs => simp only [Conn.arrive]; split_ifs <;> rfl
  | fin => simp only [Conn.arrive]; split_ifs <;> rfl
  | rst => rfl

section Edge

variable {s : State} {x y : Sock} {c : ℕ}

theorem mem_edge : y ∈ (s.edge x).pending ↔ y = x ∨ y ∈ s.pending := by
  unfold State.edge
  split_ifs with hx
  · exact ⟨Or.inr, fun h => h.elim (fun heq => heq ▸ hx) id⟩
  · rw [List.mem_append, List.mem_singleton, or_comm]

theorem nodup_edge (h : s.pending.Nodup) : (s.edge x).pending.Nodup := by
  unfold State.edge
  split_ifs with hx
  · exact h
  · exact List.nodup_append.mpr ⟨h, List.nodup_singleton x, by
      rintro a ha b hb rfl
      exact hx (List.mem_singleton.mp hb ▸ ha)⟩

theorem waits_edge : Waits (s.edge x) c ↔ x = .conn c ∨ Waits s c := by
  unfold Waits
  rw [mem_edge]
  constructor
  · rintro ((rfl | h) | h)
    · exact Or.inl rfl
    · exact Or.inr (Or.inl h)
    · exact Or.inr (Or.inr h)
  · rintro (rfl | h | h)
    · exact Or.inl (Or.inl rfl)
    · exact Or.inl (Or.inr h)
    · exact Or.inr h

/-- An edge of the listening socket, or of a connection that is registered and open. -/
theorem Inv.edge (h : Inv s) (hx : ∀ c, x = .conn c → c ∈ s.accepted ∧ (s.conns c).closed = 0) :
    Inv (s.edge x) where
  kept := h.kept
  watched c hc hread := waits_edge.mpr (Or.inr (h.watched c hc hread))
  live c hwaits := by
    rcases waits_edge.mp hwaits with heq | hwaits
    · exact hx c heq
    · exact h.live c hwaits
  known := h.known
  fresh := h.fresh
  nodup := h.nodup
  arrived := h.arrived
  pending := nodup_edge h.pending
  batch := h.batch
  reading := h.reading

end Edge

section Step

variable {s : State}

theorem inv_init : Inv init where
  kept _ := ⟨rfl, by simp [init], Nat.zero_le 1, by simp [init]⟩
  watched := by simp [init]
  live := by simp [Waits, init]
  known := by simp [init]
  fresh := by simp [init]
  nodup := List.nodup_nil
  arrived := by simp [init]
  pending := List.nodup_nil
  batch := List.nodup_nil
  reading := by simp [init]

theorem inv_connects (h : Inv s) : Inv (step s .connects) := by
  refine Inv.edge (s := { s with arrived := s.arrived + 1, queue := s.queue ++ [s.arrived] }) ?_
    (by simp)
  have hlt : ∀ c ∈ s.queue, c < s.arrived := fun c hc => h.arrived c (List.mem_append_left _ hc)
  have hacc : ∀ c ∈ s.accepted, c < s.arrived :=
    fun c hc => h.arrived c (List.mem_append_right _ hc)
  refine ⟨h.kept, h.watched, h.live, h.known, ?_, ?_, ?_, h.pending, h.batch, h.reading⟩
  · intro c hc
    rcases List.mem_append.mp hc with hc | hc
    · exact h.fresh c hc
    · rw [List.mem_singleton.mp hc]
      exact fun hmem => lt_irrefl _ (hacc _ hmem)
  · refine List.nodup_append.mpr ⟨h.nodup, List.nodup_singleton _, ?_⟩
    rintro a ha b hb rfl
    rw [List.mem_singleton.mp hb] at ha
    exact lt_irrefl _ (hlt _ ha)
  · intro c hc
    dsimp only at hc ⊢
    rw [List.append_assoc, List.mem_append, List.mem_append, List.mem_singleton] at hc
    rcases hc with hc | rfl | hc
    · exact (hlt c hc).trans (Nat.lt_succ_self _)
    · exact Nat.lt_succ_self _
    · exact (hacc c hc).trans (Nat.lt_succ_self _)

/-- A change of one connection that the server looks at if there is something to read. -/
theorem Inv.update (h : Inv s) {c : ℕ} {k : Conn} (hkept : Kept k)
    (hclosed : k.closed = (s.conns c).closed)
    (hread : c ∈ s.accepted → k.Readable → Waits s c) :
    Inv { s with conns := Function.update s.conns c k } := by
  have hall : ∀ d, (Function.update s.conns c k d).closed = (s.conns d).closed := by
    intro d
    by_cases hd : d = c
    · subst hd
      rw [Function.update_self, hclosed]
    · rw [Function.update_of_ne hd]
  refine ⟨fun d => ?_, fun d hd hreadable => ?_, fun d hwaits => ?_, fun d hd => ?_, h.fresh,
    h.nodup, h.arrived, h.pending, h.batch, h.reading⟩
  · by_cases hd : d = c
    · subst hd
      dsimp only
      rwa [Function.update_self]
    · dsimp only
      rw [Function.update_of_ne hd]
      exact h.kept d
  · dsimp only at hreadable
    by_cases hdc : d = c
    · subst hdc
      rw [Function.update_self] at hreadable
      exact hread hd hreadable
    · rw [Function.update_of_ne hdc] at hreadable
      exact h.watched d hd hreadable
  · dsimp only
    rw [hall]
    exact h.live d hwaits
  · dsimp only at hd
    rw [hall] at hd
    exact h.known d hd

theorem inv_arrives (h : Inv s) (c : ℕ) (a : Arrival) : Inv (step s (.arrives c a)) := by
  show Inv (s.arrives c a)
  unfold State.arrives
  split_ifs with hc
  · obtain ⟨-, hopen⟩ := hc
    have hkept := (h.kept c).arrive hopen a
    unfold State.wake
    dsimp only
    split_ifs with hacc
    · have hedge : Inv (s.edge (.conn c)) :=
        h.edge fun d hd => Sock.conn.inj hd ▸ ⟨hacc, hopen⟩
      exact hedge.update hkept (closed_arrive _ a) fun _ _ => waits_edge.mpr (Or.inl rfl)
    · exact h.update hkept (closed_arrive _ a) fun hmem => absurd hmem hacc
  · exact h

/-! ### A step of the server -/

/-- A state in which the server looks at the same connections. -/
theorem Inv.of_waits {t : State} (h : Inv s) (hconns : t.conns = s.conns)
    (haccepted : t.accepted = s.accepted) (hwaits : ∀ c, Waits t c ↔ Waits s c)
    (hqueue : t.queue = s.queue) (harrived : t.arrived = s.arrived) (hpending : t.pending.Nodup)
    (hbatch : t.batch.Nodup) (hreading : ∀ c, t.reading = some c → .conn c ∉ t.batch) : Inv t where
  kept c := hconns ▸ h.kept c
  watched c hc hread := (hwaits c).mpr (h.watched c (haccepted ▸ hc) (hconns ▸ hread))
  live c hc := by
    rw [haccepted, hconns]
    exact h.live c ((hwaits c).mp hc)
  known c hc := by
    rw [haccepted]
    exact h.known c (hconns ▸ hc)
  fresh := by
    rw [hqueue, haccepted]
    exact h.fresh
  nodup := hqueue ▸ h.nodup
  arrived := by
    rw [hqueue, haccepted, harrived]
    exact h.arrived
  pending := hpending
  batch := hbatch
  reading := hreading

/-- `epoll_wait`. -/
theorem inv_wait (h : Inv s) (hreading : s.reading = none) (hbatch : s.batch = []) :
    Inv { s with batch := s.pending.take MAX_EVENT, pending := s.pending.drop MAX_EVENT } := by
  have hpending := h.pending
  rw [← List.take_append_drop MAX_EVENT s.pending, List.nodup_append] at hpending
  refine h.of_waits rfl rfl (fun c => ?_) rfl rfl hpending.2.1 hpending.1 (by simp [hreading])
  have hmem : .conn c ∈ s.pending ↔
      .conn c ∈ s.pending.take MAX_EVENT ∨ .conn c ∈ s.pending.drop MAX_EVENT := by
    rw [← List.mem_append, List.take_append_drop]
  simp only [Waits, hbatch, hreading, hmem, List.not_mem_nil, reduceCtorEq, or_false]
  exact or_comm

/-- The loop of `epoll_et` comes to a connection. -/
theorem inv_event (h : Inv s) {c : ℕ} {batch : List Sock} (hreading : s.reading = none)
    (hbatch : s.batch = .conn c :: batch) :
    Inv { s with batch := batch, reading := some c } := by
  have hnodup := h.batch
  rw [hbatch, List.nodup_cons] at hnodup
  refine h.of_waits rfl rfl (fun d => ?_) rfl rfl h.pending hnodup.2 ?_
  · simp only [Waits, hbatch, hreading, List.mem_cons, Sock.conn.injEq, Option.some.injEq,
      reduceCtorEq, or_false, eq_comm (a := d)]
    tauto
  · rintro d hd
    obtain rfl := Option.some.inj hd
    exact hnodup.1

/-- The oldest connection of the queue is registered, with an edge if it is readable. -/
theorem Inv.register (h : Inv s) {c : ℕ} {queue : List ℕ} {pending : List Sock}
    (hqueue : s.queue = c :: queue) (hnodup : pending.Nodup)
    (hmem : ∀ d, .conn d ∈ pending ↔ .conn d ∈ s.pending ∨ d = c ∧ (s.conns c).Readable) :
    Inv { s with queue := queue, accepted := s.accepted ++ [c], pending := pending } := by
  have hc : c ∉ s.accepted := h.fresh c (by simp [hqueue])
  have hopen : (s.conns c).closed = 0 := by
    by_contra hne
    exact hc (h.known c hne)
  obtain ⟨hcq, hqueue'⟩ := List.nodup_cons.mp (hqueue ▸ h.nodup)
  refine ⟨h.kept, fun d hd hread => ?_, fun d hwaits => ?_, fun d hd => ?_, fun d hd => ?_,
    hqueue', fun d hd => ?_, hnodup, h.batch, h.reading⟩
  · rcases List.mem_append.mp hd with hd | hd
    · rcases h.watched d hd hread with hwaits | hwaits
      · exact Or.inl ((hmem d).mpr (Or.inl hwaits))
      · exact Or.inr hwaits
    · obtain rfl := List.mem_singleton.mp hd
      exact Or.inl ((hmem d).mpr (Or.inr ⟨rfl, hread⟩))
  · have hold : d = c ∨ Waits s d := by
      rcases hwaits with hwaits | hwaits
      · rcases (hmem d).mp hwaits with hwaits | ⟨rfl, -⟩
        · exact Or.inr (Or.inl hwaits)
        · exact Or.inl rfl
      · exact Or.inr (Or.inr hwaits)
    rcases hold with rfl | hwaits
    · exact ⟨List.mem_append_right _ List.mem_cons_self, hopen⟩
    · exact ⟨List.mem_append_left _ (h.live d hwaits).1, (h.live d hwaits).2⟩
  · exact List.mem_append_left _ (h.known d hd)
  · have hdq : d ∈ s.queue := hqueue ▸ List.mem_cons_of_mem c hd
    rw [List.mem_append, List.mem_singleton, not_or]
    exact ⟨h.fresh d hdq, fun heq => hcq (heq ▸ hd)⟩
  · refine h.arrived d ?_
    rw [hqueue]
    simp only [List.mem_append, List.mem_cons, List.not_mem_nil, or_false] at hd ⊢
    tauto

/-- The loop comes to the listening socket. -/
theorem inv_accept (h : Inv s) {batch : List Sock} (hreading : s.reading = none)
    (hbatch : s.batch = .listening :: batch) : Inv ({ s with batch := batch } : State).accept := by
  have hnodup := h.batch
  rw [hbatch, List.nodup_cons] at hnodup
  have hrest : Inv { s with batch := batch } := by
    refine h.of_waits rfl rfl (fun c => ?_) rfl rfl h.pending hnodup.2 (by simp [hreading])
    simp [Waits, hbatch]
  unfold State.accept
  split
  case h_1 => exact hrest
  case h_2 c queue hqueue =>
    dsimp only
    split_ifs with hread
    · refine hrest.register hqueue (nodup_edge (x := .conn c) hrest.pending) fun d => ?_
      refine (mem_edge (s := s) (x := .conn c) (y := .conn d)).trans ?_
      rw [or_comm, Sock.conn.injEq]
      exact or_congr_right (iff_self_and.mpr fun _ => hread)
    · exact hrest.register hqueue hrest.pending fun d => by simp [hread]

/-- The `while` loop makes a turn. -/
theorem inv_recv (h : Inv s) {c : ℕ} (hreading : s.reading = some c) : Inv (s.recv c) := by
  obtain ⟨hwhole, hchunks, honce, hover⟩ := h.kept c
  obtain ⟨hacc, hopen⟩ := h.live c (Or.inr (Or.inr hreading))
  unfold State.recv
  dsimp only
  split_ifs with hbuffer hgoing
  · have hBUF : BUF_SIZE = 128 := rfl
    refine h.update ⟨?_, ?_, honce, ?_⟩ rfl fun _ _ => Or.inr (Or.inr hreading)
    · simp only [Conn.read, List.flatten_append, List.flatten_singleton, List.append_assoc,
        List.take_append_drop, hwhole]
    · intro chunk hchunk
      rcases List.mem_append.mp hchunk with hchunk | hchunk
      · exact hchunks chunk hchunk
      · rw [List.mem_singleton.mp hchunk]
        refine ⟨?_, List.length_take_le _ _⟩
        rw [ne_eq, List.take_eq_nil_iff, not_or]
        exact ⟨by omega, hbuffer⟩
    · intro hclosed
      rw [show (s.conns c).read.closed = (s.conns c).closed from rfl, hopen] at hclosed
      cases hclosed
  · -- `EAGAIN`: nothing is left to read
    have hdone : ¬ (s.conns c).Readable := by
      rintro ⟨-, hnot | hnot⟩
      · exact hbuffer hnot
      · exact hnot hgoing
    refine ⟨h.kept, fun d hd hread => ?_, fun d hwaits => h.live d ?_, h.known, h.fresh, h.nodup,
      h.arrived, h.pending, h.batch, by simp⟩
    · rcases h.watched d hd hread with hwaits | hwaits | hwaits
      · exact Or.inl hwaits
      · exact Or.inr (Or.inl hwaits)
      · obtain rfl := Option.some.inj (hreading.symm.trans hwaits)
        exact absurd hread hdone
    · rcases hwaits with hwaits | hwaits | hwaits
      · exact Or.inl hwaits
      · exact Or.inr (Or.inl hwaits)
      · cases hwaits
  · rw [not_not] at hbuffer
    have hself : (Function.update s.conns c (s.conns c).close c).closed = 1 := by
      rw [Function.update_self, Conn.close, hopen]
    refine ⟨fun d => ?_, fun d hd hread => ?_, fun d hwaits => ?_, fun d hd => ?_, h.fresh, h.nodup,
      h.arrived, h.pending.filter _, h.batch, by simp⟩
    · dsimp only
      by_cases hdc : d = c
      · subst hdc
        rw [Function.update_self]
        refine ⟨hwhole, hchunks, ?_, fun _ => ⟨hbuffer, hgoing⟩⟩
        rw [Conn.close, hopen]
      · rw [Function.update_of_ne hdc]
        exact h.kept d
    · dsimp only at hread
      by_cases hdc : d = c
      · subst hdc
        have hzero := hread.1
        rw [hself] at hzero
        cases hzero
      · rw [Function.update_of_ne hdc] at hread
        rcases h.watched d hd hread with hwaits | hwaits | hwaits
        · exact Or.inl (List.mem_filter.mpr ⟨hwaits, by simpa using hdc⟩)
        · exact Or.inr (Or.inl hwaits)
        · exact absurd (Option.some.inj (hreading.symm.trans hwaits)).symm hdc
    · -- the socket that is closed is in neither of the lists
      have hdc : d ≠ c ∧ Waits s d := by
        rcases hwaits with hwaits | hwaits | hwaits
        · obtain ⟨hmem, hne⟩ := List.mem_filter.mp hwaits
          exact ⟨by simpa using hne, Or.inl hmem⟩
        · exact ⟨fun heq => h.reading c hreading (heq ▸ hwaits), Or.inr (Or.inl hwaits)⟩
        · cases hwaits
      dsimp only
      rw [Function.update_of_ne hdc.1]
      exact h.live d hdc.2
    · dsimp only at hd
      by_cases hdc : d = c
      · exact hdc ▸ hacc
      · rw [Function.update_of_ne hdc] at hd
        exact h.known d hd

theorem inv_serve (h : Inv s) : Inv (serve s) := by
  unfold serve
  split
  case h_1 c _ hreading => exact inv_recv h hreading
  case h_2 batch hreading hbatch => exact inv_accept h hreading hbatch
  case h_3 c batch hreading hbatch => exact inv_event h hreading hbatch
  case h_4 hreading hbatch => exact inv_wait h hreading hbatch

/-- **Every step keeps this**, whoever takes it. -/
theorem inv_step (s : State) (m : Move) (h : Inv s) : Inv (step s m) := by
  cases m with
  | connects => exact inv_connects h
  | arrives c a => exact inv_arrives h c a
  | serve => exact inv_serve h

end Step

theorem inv_run (moves : List Move) : Inv (moves.foldl step init) :=
  inv_foldl Inv inv_step moves inv_init

/-! ## Safety -/

/-- What `cout` prints of the chunks: `buf` is a string. -/
def Conn.text (k : Conn) : Bytes := (k.chunks.map cstr).flatten

theorem length_flatten_map_le {f g : Bytes → Bytes} (hpre : ∀ a, f a <+: g a)
    (l : List Bytes) : (l.map f).flatten.length ≤ (l.map g).flatten.length := by
  induction l with
  | nil => exact le_rfl
  | cons a l ih =>
    simp only [List.map_cons, List.flatten_cons, List.length_append]
    exact Nat.add_le_add (hpre a).length_le ih

/-- Beginnings of pieces make the whole only if they are the pieces. -/
theorem flatten_map_eq_iff {f g : Bytes → Bytes} (hpre : ∀ a, f a <+: g a) (l : List Bytes) :
    (l.map f).flatten = (l.map g).flatten ↔ ∀ a ∈ l, f a = g a := by
  induction l with
  | nil => simp
  | cons a l ih =>
    rw [List.map_cons, List.map_cons, List.flatten_cons, List.flatten_cons, List.forall_mem_cons]
    constructor
    · intro h
      have hlen := congrArg List.length h
      simp only [List.length_append] at hlen
      have hle := (hpre a).length_le
      have hle' := length_flatten_map_le hpre l
      have ha : f a = g a := (hpre a).eq_of_length (by omega)
      rw [ha, List.append_cancel_left_eq] at h
      exact ⟨ha, ih.mp h⟩
    · rintro ⟨ha, hl⟩
      rw [ha, ih.mpr hl]

theorem flatten_map_cstr_eq_iff (chunks : List Bytes) :
    (chunks.map cstr).flatten = chunks.flatten ↔ NUL ∉ chunks.flatten := by
  have hpre : ∀ chunk, cstr chunk <+: id chunk := fun chunk => List.takeWhile_prefix _
  have hiff := flatten_map_eq_iff hpre chunks
  rw [List.map_id] at hiff
  rw [hiff, List.mem_flatten, not_exists]
  refine forall_congr' fun chunk => ?_
  rw [not_and]
  refine imp_congr_right fun _ => ⟨fun h hnul => ?_, cstr_eq_self⟩
  have hcstr : cstr chunk = chunk := h
  rw [← hcstr] at hnul
  exact nul_notMem_cstr chunk hnul

/-- **Nothing is lost, and nothing is done twice.** In every run, whatever the clients do and
in whatever order: what has been read of a connection is a beginning of what was sent; a
connection is closed at most once, and only when its client has ended it and all of it is
read; and the server is going to look at every accepted connection that has something to
tell. -/
theorem never_lost (moves : List Move) (c : ℕ) :
    let s := moves.foldl step init
    (s.conns c).chunks.flatten <+: (s.conns c).sent ∧ (s.conns c).closed ≤ 1 ∧
      ((s.conns c).closed = 1 →
        (s.conns c).chunks.flatten = (s.conns c).sent ∧ (s.conns c).ending ≠ .going) ∧
      (c ∈ s.accepted → (s.conns c).Readable → Waits s c) := by
  obtain ⟨hwhole, -, honce, hover⟩ := (inv_run moves).kept c
  refine ⟨⟨_, hwhole⟩, honce, fun hclosed => ?_, (inv_run moves).watched c⟩
  obtain ⟨hbuffer, hending⟩ := hover hclosed
  rw [hbuffer, List.append_nil] at hwhole
  exact ⟨hwhole, hending⟩

/-! ## Progress -/

section Progress

variable {s : State}

/-- How much is unread. -/
def unread (conns : ℕ → Conn) : Sock → ℕ
  | .listening => 0
  | .conn c => (conns c).buffer.length

/-- What is left to do when no client moves. -/
def toGo (s : State) : ℕ :=
  (s.queue.map fun c => 4 + unread s.conns (.conn c)).sum +
    (s.pending.map fun x => 3 + unread s.conns x).sum +
    (s.batch.map fun x => 2 + unread s.conns x).sum +
    s.reading.elim 0 fun c => 1 + unread s.conns (.conn c)

/-- The server blocks in `epoll_wait`. -/
def Idle (s : State) : Prop := s.reading = none ∧ s.batch = [] ∧ s.pending = []

theorem unread_read_le (c : ℕ) (x : Sock) :
    unread (Function.update s.conns c (s.conns c).read) x ≤ unread s.conns x := by
  cases x with
  | listening => exact le_rfl
  | conn d =>
    by_cases hd : d = c
    · subst hd
      simp [unread, Conn.read]
    · simp [unread, Function.update_of_ne hd]

theorem unread_close (c : ℕ) (x : Sock) :
    unread (Function.update s.conns c (s.conns c).close) x = unread s.conns x := by
  cases x with
  | listening => rfl
  | conn d =>
    by_cases hd : d = c
    · subst hd
      simp [unread, Conn.close]
    · simp [unread, Function.update_of_ne hd]

theorem sum_map_le {α : Type} (l : List α) {f g : α → ℕ} (h : ∀ a, f a ≤ g a) :
    (l.map f).sum ≤ (l.map g).sum :=
  List.sum_le_sum fun a _ => h a

theorem sum_filter_le {α : Type} (p : α → Bool) (f : α → ℕ) (l : List α) :
    ((l.filter p).map f).sum ≤ (l.map f).sum :=
  ((List.filter_sublist).map f).sum_le_sum fun _ _ => Nat.zero_le _

theorem toGo_recv {c : ℕ} (hreading : s.reading = some c) : toGo (s.recv c) < toGo s := by
  have hBUF : BUF_SIZE = 128 := rfl
  unfold State.recv
  dsimp only
  split_ifs with hbuffer hgoing
  · have hqueue := sum_map_le s.queue
      fun d => Nat.add_le_add_left (unread_read_le (s := s) c (.conn d)) 4
    have hpending := sum_map_le s.pending
      fun x => Nat.add_le_add_left (unread_read_le (s := s) c x) 3
    have hbatch := sum_map_le s.batch
      fun x => Nat.add_le_add_left (unread_read_le (s := s) c x) 2
    have hlt : unread (Function.update s.conns c (s.conns c).read) (.conn c) <
        unread s.conns (.conn c) := by
      have hpos := List.length_pos_iff.mpr hbuffer
      simp only [unread, Function.update_self, Conn.read, List.length_drop]
      omega
    simp only [toGo, hreading, Option.elim_some]
    omega
  · simp only [toGo, hreading, Option.elim_some, Option.elim_none]
    omega
  · have hpending := sum_filter_le (· ≠ .conn c) (fun x => 3 + unread s.conns x) s.pending
    simp only [toGo, hreading, Option.elim_some, Option.elim_none, unread_close]
    omega

theorem toGo_accept {batch : List Sock} (hreading : s.reading = none)
    (hbatch : s.batch = .listening :: batch) :
    toGo ({ s with batch := batch } : State).accept < toGo s := by
  unfold State.accept
  split
  case h_1 =>
    simp only [toGo, hbatch, List.map_cons, List.sum_cons]
    omega
  case h_2 c queue hqueue =>
    dsimp only at hqueue ⊢
    have hedge : ∀ t : State, ((t.edge (.conn c)).pending.map fun x => 3 + unread t.conns x).sum ≤
        (t.pending.map fun x => 3 + unread t.conns x).sum + (3 + unread t.conns (.conn c)) := by
      intro t
      unfold State.edge
      dsimp only
      split_ifs
      · exact Nat.le_add_right _ _
      · simp
    split_ifs
    · have hle := hedge s
      simp only [toGo, State.edge, hqueue, hbatch, hreading, List.map_cons, List.sum_cons,
        Option.elim_none] at hle ⊢
      omega
    · simp only [toGo, hqueue, hbatch, hreading, List.map_cons, List.sum_cons, Option.elim_none]
      omega

/-- Every step of the server brings it nearer to `epoll_wait` with nothing to report. -/
theorem toGo_serve (h : ¬ Idle s) : toGo (serve s) < toGo s := by
  unfold serve
  split
  case h_1 c _ hreading => exact toGo_recv hreading
  case h_2 batch hreading hbatch => exact toGo_accept hreading hbatch
  case h_3 c batch hreading hbatch =>
    simp only [toGo, hreading, hbatch, List.map_cons, List.sum_cons, Option.elim_none,
      Option.elim_some]
    omega
  case h_4 hreading hbatch =>
    have hpending : s.pending ≠ [] := fun hnil => h ⟨hreading, hbatch, hnil⟩
    have hMAX : MAX_EVENT = 1024 := rfl
    have hsplit : (s.pending.map fun x => 3 + unread s.conns x).sum =
        ((s.pending.take MAX_EVENT).map fun x => 3 + unread s.conns x).sum +
          ((s.pending.drop MAX_EVENT).map fun x => 3 + unread s.conns x).sum := by
      rw [← List.sum_append, ← List.map_append, List.take_append_drop]
    have hlt : ((s.pending.take MAX_EVENT).map fun x => 2 + unread s.conns x).sum <
        ((s.pending.take MAX_EVENT).map fun x => 3 + unread s.conns x).sum := by
      refine List.sum_lt_sum_of_ne_nil ?_ _ _ fun x _ => by omega
      rw [ne_eq, List.take_eq_nil_iff, not_or]
      exact ⟨by omega, hpending⟩
    simp only [toGo, hreading, hbatch, List.map_nil, List.sum_nil, Option.elim_none]
    omega

theorem serve_of_idle (h : Idle s) : serve s = s := by
  obtain ⟨arrived, conns, queue, accepted, pending, batch, reading⟩ := s
  obtain ⟨rfl, rfl, rfl⟩ := h
  rfl

/-- So many steps are enough. -/
theorem idle_iterate (n : ℕ) (hn : toGo s ≤ n) : Idle (serve^[n] s) := by
  induction n generalizing s with
  | zero =>
    by_contra hidle
    have hlt := toGo_serve (s := s) hidle
    omega
  | succ n ih =>
    rw [Function.iterate_succ_apply]
    by_cases hidle : Idle s
    · rw [serve_of_idle hidle]
      exact (Function.iterate_fixed (serve_of_idle hidle) n).symm ▸ hidle
    · have hlt := toGo_serve hidle
      exact ih (by omega)

theorem inv_iterate (h : Inv s) (n : ℕ) : Inv (serve^[n] s) := by
  induction n with
  | zero => exact h
  | succ n ih =>
    rw [Function.iterate_succ_apply']
    exact inv_serve ih

end Progress

/-- Nothing is unread when the server rests. -/
theorem buffer_of_idle {s : State} (hinv : Inv s) (hidle : Idle s) {c : ℕ} (hc : c ∈ s.accepted) :
    ¬ (s.conns c).Readable ∧ (s.conns c).buffer = [] := by
  -- nothing is pending, so that nothing is readable
  have hdone : ¬ (s.conns c).Readable := by
    intro hread
    obtain ⟨hreading, hbatch, hpending⟩ := hidle
    have hwaits := hinv.watched c hc hread
    simp [Waits, hreading, hbatch, hpending] at hwaits
  refine ⟨hdone, ?_⟩
  obtain ⟨-, -, honce, hover⟩ := hinv.kept c
  by_cases hclosed : (s.conns c).closed = 1
  · exact (hover hclosed).1
  · by_contra hne
    exact hdone ⟨by omega, Or.inl hne⟩

/-- **Everything is read.** After any run, when the clients are quiet, the server comes to
rest within so many steps. Then all that was sent on the connections it has accepted is read
in order, exactly those whose clients have ended are closed, and what was printed is what was
sent unless there is a `'\0'` in it. -/
theorem drains (moves : List Move) (n : ℕ) (hn : toGo (moves.foldl step init) ≤ n) :
    let s := serve^[n] (moves.foldl step init)
    Idle s ∧ ∀ c ∈ s.accepted, (s.conns c).chunks.flatten = (s.conns c).sent ∧
      ((s.conns c).closed = 1 ↔ (s.conns c).ending ≠ .going) ∧
      ((s.conns c).text = (s.conns c).sent ↔ NUL ∉ (s.conns c).sent) := by
  have hidle := idle_iterate n hn
  have hinv := inv_iterate (inv_run moves) n
  generalize serve^[n] (moves.foldl step init) = s at hidle hinv
  refine ⟨hidle, fun c hc => ?_⟩
  obtain ⟨hwhole, -, honce, hover⟩ := hinv.kept c
  obtain ⟨hdone, hbuffer⟩ := buffer_of_idle hinv hidle hc
  rw [hbuffer, List.append_nil] at hwhole
  refine ⟨hwhole, ⟨fun hclosed => (hover hclosed).2, fun hending => ?_⟩, ?_⟩
  · by_contra hclosed
    exact hdone ⟨by omega, Or.inr hending⟩
  · rw [← hwhole]
    exact flatten_map_cstr_eq_iff _

/-- A client connects and is accepted, sends `hi` and ends the connection. -/
theorem drains_example :
    let s := serve^[20] ([.connects, .serve, .serve, .arrives 0 (.data (bytes "hi")),
      .arrives 0 .fin].foldl step init)
    Idle s ∧ (s.conns 0).text = bytes "hi" ∧ (s.conns 0).closed = 1 := by
  obtain ⟨hidle, hall⟩ := drains [.connects, .serve, .serve, .arrives 0 (.data (bytes "hi")),
    .arrives 0 .fin] 20 (by decide)
  obtain ⟨-, hclosed, htext⟩ := hall 0 (by decide)
  exact ⟨hidle, (htext.mpr (by decide)).trans (by decide), hclosed.mpr (by decide)⟩

end FacePerception.Epoll.Drain
