import FacePerception.Epoll.Dispatch
import FacePerception.Lib.Runs

/-!
# The pending edges of `epoll_et`

The server of `server/server.h` between its clients and `epoll_et`: the connections
that wait for `accept`, the sockets with a pending edge, and the batch that
`epoll_et` works through, a turn at a time (`turn`). All sockets are registered
with `EPOLLET`: an arrival sets the edge of its socket, and `epoll_wait` reports it
once and clears it.

Results:
* `step_wait`, `step_turn_listening`, `step_turn_socket`: what a step does.
* `inv_step`: what a step keeps if at most one connection waits when the edge of the
  listening socket is taken and `pthread_create` succeeds.
* `settled_of_along`: what holds after every call of `epoll_et` in a run of such steps.
* `second_arrival_stranded`: two connections that arrive before one `epoll_wait`.
-/

namespace FacePerception.Epoll

open Runs

/-! ## The server and its clients -/

def MAX_EVENT : ℕ := 1024

/-- Connections are numbered in the order of their arrival. -/
structure State where
  arrived : ℕ
  /-- The connections that wait for `accept`, the oldest first. -/
  queue : List ℕ
  /-- Those that `accept` has returned. -/
  accepted : List ℕ
  /-- The sockets with a pending edge. -/
  pending : List ℤ
  /-- The sockets of the batch that `epoll_et` has not come to. -/
  batch : List ℤ
  connfd : ℤ
  /-- The connections that waited when the last `epoll_wait` took the edge of the
      listening socket; none if it did not. -/
  taken : List ℕ
  /-- The events of the last batch that `epoll_et` returned without acting on. -/
  lost : List ℤ

/-- A client connects or sends on the socket `fd`, `main` calls `epoll_wait`, which
reports edges of the sockets `fds`, or the loop of `epoll_et` makes a turn, in which
`accept` returns `fd` if a connection waits. -/
inductive Move
  | connects
  | sends (fd : ℤ)
  | wait (fds : List ℤ)
  | turn (fd : ℤ) (created : Bool)

/-- The server before the first `epoll_wait` (`server/server.cpp`, lines 17–21). -/
def init : State := ⟨0, [], [], [], [], 0, [], []⟩

/-- What `epoll_wait` can report: it is called when `epoll_et` has returned. -/
def CanReport (s : State) (fds : List ℤ) : Prop :=
  s.batch = [] ∧ fds ≠ [] ∧ fds.length ≤ MAX_EVENT ∧ fds.Nodup ∧ ∀ fd ∈ fds, fd ∈ s.pending

instance decidableCanReport (s : State) (fds : List ℤ) : Decidable (CanReport s fds) :=
  @instDecidableAnd _ _ _ (@instDecidableAnd _ _ _ (@instDecidableAnd _ _ _
    (@instDecidableAnd _ _ _ (List.decidableBAll _ _))))

/-- `epoll_wait`: the connections that wait are remembered if it takes the edge of the
listening socket. -/
def State.wait (listenSock : ℤ) (s : State) (fds : List ℤ) : State :=
  { s with
    pending := s.pending.filter (· ∉ fds)
    batch := fds
    taken := if listenSock ∈ fds then s.queue else []
    lost := [] }

/-- A turn on an event of `sockfd`, which leaves the events `batch`. An arrival is always
reported as `EPOLLIN`. -/
def State.turn (listenSock : ℤ) (s : State) (sockfd : ℤ) (batch : List ℤ) (fd : ℤ)
    (created : Bool) : State :=
  let accepted := if s.queue = [] then -1 else fd
  match Epoll.turn listenSock s.connfd ⟨⟨sockfd, true⟩, accepted, created⟩ with
  | none => { s with batch := [], lost := sockfd :: batch }
  | some (connfd, .accepted _) =>
    { s with
      batch := batch
      connfd := connfd
      queue := s.queue.tail
      accepted := s.accepted ++ s.queue.take 1 }
  | some (connfd, _) => { s with batch := batch, connfd := connfd }

/-- A step; a move that cannot be made does nothing. -/
def step (listenSock : ℤ) (s : State) : Move → State
  | .connects =>
    { s with
      arrived := s.arrived + 1
      queue := s.queue ++ [s.arrived]
      pending := s.pending.insert listenSock }
  | .sends fd => { s with pending := s.pending.insert fd }
  | .wait fds => if CanReport s fds then s.wait listenSock fds else s
  | .turn fd created =>
    match s.batch with
    | [] => s
    | sockfd :: batch => s.turn listenSock sockfd batch fd created

/-! ## Nothing is lost -/

/-- What holds when `epoll_et` has returned: the connections that waited when the edge of
the listening socket was taken are accepted, every event of the batch is acted on, and no
connection waits without a pending edge. -/
def Settled (listenSock : ℤ) (s : State) : Prop :=
  s.batch = [] →
    (∀ c ∈ s.taken, c ∈ s.accepted) ∧ s.lost = [] ∧ (s.queue ≠ [] → listenSock ∈ s.pending)

/-- At most one connection waits when the edge of the listening socket is taken, and
`pthread_create` succeeds for an event of another socket. -/
def Calm (listenSock : ℤ) (s : State) : Move → Prop
  | .connects => True
  | .sends _ => True
  | .wait fds => listenSock ∈ fds → s.queue.length ≤ 1
  | .turn _ created => ∀ sockfd, s.batch.head? = some sockfd → sockfd ≠ listenSock → created = true

/-- What holds between the turns: while the edge of the listening socket is still to come
in the batch, one `accept` is ahead. -/
structure Inv (listenSock : ℤ) (s : State) : Prop where
  lost : s.lost = []
  nodup : s.batch.Nodup
  before : listenSock ∈ s.batch →
    (∀ c ∈ s.taken, c ∈ s.accepted ++ s.queue.take 1) ∧
      (s.queue.tail ≠ [] → listenSock ∈ s.pending)
  after : listenSock ∉ s.batch →
    (∀ c ∈ s.taken, c ∈ s.accepted) ∧ (s.queue ≠ [] → listenSock ∈ s.pending)

/-! ## What a step does -/

variable {listenSock : ℤ} {s : State}

theorem step_wait {fds : List ℤ} (h : CanReport s fds) :
    step listenSock s (.wait fds) = s.wait listenSock fds := if_pos h

theorem step_turn_listening {batch : List ℤ} (h : s.batch = listenSock :: batch) (fd : ℤ)
    (created : Bool) :
    ∃ connfd, step listenSock s (.turn fd created) =
      { s with
        batch := batch
        connfd := connfd
        queue := s.queue.tail
        accepted := s.accepted ++ s.queue.take 1 } := by
  have hturn : Epoll.turn listenSock s.connfd
      ⟨⟨listenSock, true⟩, if s.queue = [] then -1 else fd, created⟩ = some _ :=
    turn_listening rfl s.connfd
  simp only [step, h, State.turn, hturn]
  exact ⟨_, rfl⟩

theorem step_turn_socket {sockfd : ℤ} {batch : List ℤ} (h : s.batch = sockfd :: batch)
    (hsock : sockfd ≠ listenSock) (fd : ℤ) :
    step listenSock s (.turn fd true) = { s with batch := batch } := by
  simp [step, h, State.turn, Epoll.turn, hsock]

/-! ## What every step keeps -/

theorem inv_init : Inv listenSock init := by
  refine ⟨rfl, List.nodup_nil, ?_, ?_⟩ <;> simp [init]

theorem inv_connects (hs : Inv listenSock s) : Inv listenSock (step listenSock s .connects) := by
  refine ⟨hs.lost, hs.nodup, ?_, ?_⟩
  · intro hmem
    refine ⟨?_, fun _ => List.mem_insert_self⟩
    intro c hc
    show c ∈ s.accepted ++ (s.queue ++ [s.arrived]).take 1
    have hold := (hs.before hmem).1 c hc
    rw [List.take_append]
    exact List.append_assoc .. ▸ List.mem_append_left _ hold
  · intro hmem
    exact ⟨(hs.after hmem).1, fun _ => List.mem_insert_self⟩

theorem inv_sends (hs : Inv listenSock s) (fd : ℤ) :
    Inv listenSock (step listenSock s (.sends fd)) := by
  refine ⟨hs.lost, hs.nodup, ?_, ?_⟩
  · intro hmem
    exact ⟨(hs.before hmem).1, fun h => List.mem_insert_of_mem ((hs.before hmem).2 h)⟩
  · intro hmem
    exact ⟨(hs.after hmem).1, fun h => List.mem_insert_of_mem ((hs.after hmem).2 h)⟩

theorem inv_wait (hs : Inv listenSock s) {fds : List ℤ} (hC : Calm listenSock s (.wait fds)) :
    Inv listenSock (step listenSock s (.wait fds)) := by
  by_cases h : CanReport s fds
  · rw [step_wait h]
    refine ⟨rfl, h.2.2.2.1, ?_, ?_⟩
    · intro (hmem : listenSock ∈ fds)
      have hlen : s.queue.length ≤ 1 := hC hmem
      have htail : s.queue.tail = [] := by
        rw [← List.length_eq_zero_iff, List.length_tail]
        omega
      refine ⟨?_, fun hne => absurd htail hne⟩
      intro c hc
      show c ∈ s.accepted ++ s.queue.take 1
      rw [List.take_of_length_le hlen]
      exact List.mem_append_right _ (by simpa [State.wait, hmem] using hc)
    · intro (hmem : listenSock ∉ fds)
      have hafter := hs.after (by simp [h.1])
      refine ⟨by simp [State.wait, hmem], ?_⟩
      intro hne
      exact List.mem_filter.mpr ⟨hafter.2 hne, by simpa using hmem⟩
  · have hstep : step listenSock s (.wait fds) = s := if_neg h
    rwa [hstep]

theorem inv_turn (hs : Inv listenSock s) {fd : ℤ} {created : Bool}
    (hC : Calm listenSock s (.turn fd created)) :
    Inv listenSock (step listenSock s (.turn fd created)) := by
  cases hbatch : s.batch with
  | nil =>
    have hstep : step listenSock s (.turn fd created) = s := by simp [step, hbatch]
    rwa [hstep]
  | cons sockfd batch =>
    have hnodup : sockfd ∉ batch ∧ batch.Nodup := List.nodup_cons.mp (hbatch ▸ hs.nodup)
    by_cases hsock : sockfd = listenSock
    · subst hsock
      obtain ⟨connfd, hstep⟩ := step_turn_listening hbatch fd created
      have hbefore := hs.before (by simp [hbatch])
      rw [hstep]
      -- the only event of the listening socket is behind us
      refine ⟨hs.lost, hnodup.2, fun hmem => absurd hmem hnodup.1, fun _ => hbefore⟩
    · obtain rfl : created = true := hC sockfd (by simp [hbatch]) hsock
      rw [step_turn_socket hbatch hsock]
      have hmem : listenSock ∈ s.batch ↔ listenSock ∈ batch := by
        rw [hbatch, List.mem_cons]
        exact or_iff_right (Ne.symm hsock)
      exact ⟨hs.lost, hnodup.2, fun h => hs.before (hmem.mpr h),
        fun h => hs.after fun h' => h (hmem.mp h')⟩

theorem inv_step (s : State) (m : Move) (hs : Inv listenSock s) (hC : Calm listenSock s m) :
    Inv listenSock (step listenSock s m) := by
  cases m with
  | connects => exact inv_connects hs
  | sends fd => exact inv_sends hs fd
  | wait fds => exact inv_wait hs hC
  | turn fd created => exact inv_turn hs hC

theorem Inv.settled (hs : Inv listenSock s) : Settled listenSock s := by
  intro hbatch
  have hafter := hs.after (by simp [hbatch])
  exact ⟨hafter.1, hs.lost, hafter.2⟩

/-- **The edges.** In every run in which at most one connection waits whenever the edge of
the listening socket is taken and `pthread_create` succeeds, nothing is lost: after each
call of `epoll_et` the connections that waited are accepted, every event is acted on, and a
connection that waits has a pending edge. -/
theorem settled_of_along (listenSock : ℤ) (moves : List Move)
    (h : Along (step listenSock) (Calm listenSock) init moves) :
    Settled listenSock (moves.foldl (step listenSock) init) :=
  (inv_foldl_of_along (Inv listenSock) inv_step moves init inv_init h).settled

/-- A connection is accepted, is sent a request on, and its event is acted on. -/
theorem settled_of_along_example :
    Settled 3 ([.connects, .wait [3], .turn 5 true, .sends 5, .connects, .wait [5, 3],
      .turn 6 true, .turn 6 true].foldl (step 3) init) := by
  apply settled_of_along
  simp [Along, Calm, init, step, CanReport, State.wait, State.turn, Epoll.turn, MAX_EVENT]

/-- Two connections arrive before `epoll_wait`: the second is left without an edge. -/
theorem second_arrival_stranded :
    ¬ Settled 3 ([.connects, .connects, .wait [3], .turn 5 true].foldl (step 3) init) := by
  intro h
  have hsettled := (h (by decide)).1 1
  exact absurd hsettled (by decide)

end FacePerception.Epoll
