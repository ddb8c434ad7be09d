import Mathlib.Data.List.TakeWhile
import FacePerception.Lib.CNum

/-!
# `epoll_et`

The loop of `epoll_et` (`server/server.h`, lines 301–363) over the batches that
`epoll_wait` hands it. `connfd` is static: it keeps what the last `accept` returned,
also from one call to the next, and it is what a worker is started with, whichever
socket the event was reported on.

Results:
* `dispatch_iff`: when each worker is started with the reported descriptor and no
  connection is handed to two workers.
* `two_accepts_mixed_up`: two connections accepted in one batch.
-/

namespace FacePerception.Epoll

/-! ## The loop -/

/-- `struct epoll_event`: `data.fd`, and whether `events` has `EPOLLIN`. -/
structure EpollEvent where
  fd : ℤ
  epollin : Bool
deriving DecidableEq

/-- An event of a batch, and what `accept` returns and whether `pthread_create`
succeeds if the loop calls them for it. -/
structure Turn where
  event : EpollEvent
  accepted : ℤ
  created : Bool

/-- What a turn of the loop does. -/
inductive Act
  /-- `accept` has returned `fd`, and `addfd` registers it. -/
  | accepted (fd : ℤ)
  /-- An event on `sockfd` starts a worker with `connfd`. -/
  | started (sockfd connfd : ℤ)
  | nothing
deriving DecidableEq

/-- A turn of the loop: `connfd` behind it and what it has done; `none` where the
function returns because `pthread_create` fails (line 325). -/
def turn (listenSock connfd : ℤ) (t : Turn) : Option (ℤ × Act) :=
  if t.event.fd = listenSock then some (t.accepted, .accepted t.accepted)
  else if t.event.epollin then
    if t.created then some (connfd, .started t.event.fd connfd) else none
  else some (connfd, .nothing)

/-- `epoll_et` on a batch: `connfd` behind it and what it has done. -/
def epollEt (listenSock : ℤ) : ℤ → List Turn → ℤ × List Act
  | connfd, [] => (connfd, [])
  | connfd, t :: batch =>
    match turn listenSock connfd t with
    | none => (connfd, [])
    | some (connfd, act) =>
      let r := epollEt listenSock connfd batch
      (r.1, act :: r.2)

/-- The loop of `main` (`server/server.cpp`, lines 22–36): one call for each batch. -/
def run (listenSock : ℤ) : ℤ → List (List Turn) → List Act
  | _, [] => []
  | connfd, batch :: batches =>
    let r := epollEt listenSock connfd batch
    r.2 ++ run listenSock r.1 batches

/-! ## Serving the right client once -/

/-- Each worker gets the descriptor of its event, and no connection gets two workers.
`handed` are the descriptors a worker has got since they were last accepted. -/
def Serves : List ℤ → List Act → Prop
  | _, [] => True
  | handed, .accepted fd :: acts => Serves (handed.filter (· ≠ fd)) acts
  | handed, .started sockfd connfd :: acts =>
    connfd = sockfd ∧ connfd ∉ handed ∧ Serves (connfd :: handed) acts
  | handed, .nothing :: acts => Serves handed acts

variable (listenSock : ℤ)

/-- The loop returns at this turn. -/
def Fails (t : Turn) : Prop :=
  t.event.fd ≠ listenSock ∧ t.event.epollin = true ∧ t.created = false

instance decidableFails (t : Turn) : Decidable (Fails listenSock t) :=
  inferInstanceAs (Decidable (_ ∧ _))

/-- The turns of a batch that the loop comes to and does not return at. -/
def acted (batch : List Turn) : List Turn := batch.takeWhile fun t => ¬ Fails listenSock t

/-- The turns of all batches. -/
def turns (batches : List (List Turn)) : List Turn := batches.flatMap (acted listenSock)

/-- `EPOLLIN` is reported on sockets that have been accepted; `fds` are those so far. -/
def OnAccepted : List ℤ → List Turn → Prop
  | _, [] => True
  | fds, t :: ts =>
    if t.event.fd = listenSock then OnAccepted (t.accepted :: fds) ts
    else (t.event.epollin = true → t.event.fd ∈ fds) ∧ OnAccepted fds ts

instance decidableOnAccepted : ∀ fds ts, Decidable (OnAccepted listenSock fds ts)
  | _, [] => isTrue trivial
  | fds, t :: ts =>
    have := decidableOnAccepted (t.accepted :: fds) ts
    have := decidableOnAccepted fds ts
    inferInstanceAs (Decidable
      (if t.event.fd = listenSock then OnAccepted listenSock (t.accepted :: fds) ts
      else (t.event.epollin = true → t.event.fd ∈ fds) ∧ OnAccepted listenSock fds ts))

/-- Each `EPOLLIN` event is the first since the last `accept`, and on the descriptor
which that returned; `pending` is that descriptor until then. -/
def Paired : Option ℤ → List Turn → Prop
  | _, [] => True
  | pending, t :: ts =>
    if t.event.fd = listenSock then Paired (some t.accepted) ts
    else if t.event.epollin then pending = some t.event.fd ∧ Paired none ts
    else Paired pending ts

instance decidablePaired : ∀ pending ts, Decidable (Paired listenSock pending ts)
  | _, [] => isTrue trivial
  | pending, t :: ts =>
    have := decidablePaired (some t.accepted) ts
    have := decidablePaired none ts
    have := decidablePaired pending ts
    inferInstanceAs (Decidable
      (if t.event.fd = listenSock then Paired listenSock (some t.accepted) ts
      else if t.event.epollin then pending = some t.event.fd ∧ Paired listenSock none ts
      else Paired listenSock pending ts))

/-! ## All batches as one -/

variable {listenSock}

theorem turn_listening {t : Turn} (h : t.event.fd = listenSock) (connfd : ℤ) :
    turn listenSock connfd t = some (t.accepted, .accepted t.accepted) :=
  if_pos h

theorem turn_readable {t : Turn} (h : t.event.fd ≠ listenSock) (hin : t.event.epollin = true)
    (ht : ¬ Fails listenSock t) (connfd : ℤ) :
    turn listenSock connfd t = some (connfd, .started t.event.fd connfd) := by
  have hcreated : t.created = true := by
    by_contra hcreated
    exact ht ⟨h, hin, by simpa using hcreated⟩
  simp [turn, h, hin, hcreated]

theorem turn_other {t : Turn} (h : t.event.fd ≠ listenSock) (hin : t.event.epollin = false)
    (connfd : ℤ) : turn listenSock connfd t = some (connfd, .nothing) := by
  simp [turn, h, hin]

theorem turn_of_fails {t : Turn} (h : Fails listenSock t) (connfd : ℤ) :
    turn listenSock connfd t = none := by
  obtain ⟨hlisten, hin, hcreated⟩ := h
  simp [turn, hlisten, hin, hcreated]

theorem turn_of_not_fails {t : Turn} (h : ¬ Fails listenSock t) (connfd : ℤ) :
    ∃ r, turn listenSock connfd t = some r := by
  by_cases hlisten : t.event.fd = listenSock
  · exact ⟨_, turn_listening hlisten connfd⟩
  · cases hin : t.event.epollin with
    | true => exact ⟨_, turn_readable hlisten hin h connfd⟩
    | false => exact ⟨_, turn_other hlisten hin connfd⟩

theorem epollEt_acted (batch : List Turn) (connfd : ℤ) :
    epollEt listenSock connfd (acted listenSock batch) = epollEt listenSock connfd batch := by
  induction batch generalizing connfd with
  | nil => rfl
  | cons t batch ih =>
    unfold acted at ih ⊢
    by_cases h : Fails listenSock t
    · rw [List.takeWhile_cons_of_neg (by simpa using h), epollEt, epollEt, turn_of_fails h]
    · obtain ⟨r, hr⟩ := turn_of_not_fails h connfd
      rw [List.takeWhile_cons_of_pos (by simpa using h), epollEt, epollEt, hr]
      dsimp only
      rw [ih]

theorem epollEt_append {ts : List Turn} (hts : ∀ t ∈ ts, ¬ Fails listenSock t) (ts' : List Turn)
    (connfd : ℤ) :
    (epollEt listenSock connfd (ts ++ ts')).2 = (epollEt listenSock connfd ts).2 ++
      (epollEt listenSock (epollEt listenSock connfd ts).1 ts').2 := by
  induction ts generalizing connfd with
  | nil => rfl
  | cons t ts ih =>
    obtain ⟨ht, hts⟩ := List.forall_mem_cons.mp hts
    obtain ⟨r, hr⟩ := turn_of_not_fails ht connfd
    rw [List.cons_append, epollEt, epollEt, hr]
    dsimp only
    rw [ih hts, List.cons_append]

theorem not_fails_of_mem_turns {batches : List (List Turn)} :
    ∀ t ∈ turns listenSock batches, ¬ Fails listenSock t := by
  intro t ht
  obtain ⟨batch, -, hmem⟩ := List.mem_flatMap.mp ht
  simpa using List.mem_takeWhile_imp hmem

/-- The calls for all batches do what one call for all their turns does. -/
theorem run_eq (batches : List (List Turn)) (connfd : ℤ) :
    run listenSock connfd batches = (epollEt listenSock connfd (turns listenSock batches)).2 := by
  induction batches generalizing connfd with
  | nil => rfl
  | cons batch batches ih =>
    have hbatch : ∀ t ∈ acted listenSock batch, ¬ Fails listenSock t := fun t ht =>
      by simpa using List.mem_takeWhile_imp ht
    rw [run, turns, List.flatMap_cons, epollEt_append hbatch, epollEt_acted, ih]
    rfl

/-! ## The dispatch -/

/-- What `connfd` is, between the turns: the descriptor accepted last, which has no
worker yet, or one that has, or what the loop starts with. -/
def Last (connfd : ℤ) (pending : Option ℤ) (handed fds : List ℤ) : Prop :=
  match pending with
  | some fd => fd = connfd ∧ fd ∉ handed
  | none => connfd ∈ handed ∨ fds = []

/-- When an event on `sockfd` starts its worker with the right descriptor. -/
theorem Last.serves_iff {connfd sockfd : ℤ} {pending : Option ℤ} {handed fds : List ℤ}
    (hlast : Last connfd pending handed fds) (hmem : sockfd ∈ fds) :
    connfd = sockfd ∧ connfd ∉ handed ↔ pending = some sockfd := by
  cases pending with
  | some fd =>
    obtain ⟨rfl, hfresh⟩ := hlast
    rw [Option.some.injEq]
    exact and_iff_left hfresh
  | none =>
    refine iff_of_false ?_ (Option.some_ne_none sockfd).symm
    intro ⟨_, hfresh⟩
    rcases hlast with hhanded | rfl
    · exact hfresh hhanded
    · exact List.not_mem_nil hmem

theorem serves_epollEt_iff {ts : List Turn} (hts : ∀ t ∈ ts, ¬ Fails listenSock t)
    {connfd : ℤ} {pending : Option ℤ} {handed fds : List ℤ} (hlast : Last connfd pending handed fds)
    (hon : OnAccepted listenSock fds ts) :
    Serves handed (epollEt listenSock connfd ts).2 ↔ Paired listenSock pending ts := by
  induction ts generalizing connfd pending handed fds with
  | nil => exact Iff.rfl
  | cons t ts ih =>
    obtain ⟨ht, hts⟩ := List.forall_mem_cons.mp hts
    rw [OnAccepted] at hon
    rw [Paired, epollEt]
    by_cases hlisten : t.event.fd = listenSock
    · rw [if_pos hlisten] at hon
      rw [turn_listening hlisten, if_pos hlisten]
      exact ih hts ⟨rfl, by simp⟩ hon
    · rw [if_neg hlisten] at hon
      rw [if_neg hlisten]
      cases hin : t.event.epollin with
      | true =>
        rw [turn_readable hlisten hin ht, if_pos rfl]
        show connfd = t.event.fd ∧ connfd ∉ handed ∧ Serves _ _ ↔ _
        have hlast' : Last connfd none (connfd :: handed) fds := Or.inl List.mem_cons_self
        rw [ih hts hlast' hon.2, ← and_assoc]
        apply and_congr_left
        intro _
        exact hlast.serves_iff (hon.1 hin)
      | false =>
        rw [turn_other hlisten hin, if_neg Bool.false_ne_true]
        exact ih hts hlast hon.2

/-- **The dispatch.** Over any sequence of batches, each worker is started with the
descriptor its event was reported on, and no connection gets two workers, exactly when
each `EPOLLIN` event that starts a worker is the first since the last `accept` and on the
descriptor that `accept` returned. -/
theorem dispatch_iff (listenSock : ℤ) (batches : List (List Turn))
    (hon : OnAccepted listenSock [] (turns listenSock batches)) :
    Serves [] (run listenSock 0 batches) ↔ Paired listenSock none (turns listenSock batches) := by
  rw [run_eq]
  exact serves_epollEt_iff not_fails_of_mem_turns (Or.inr rfl) hon

/-- A connection is accepted in one batch and readable in the next. -/
theorem dispatch_iff_example :
    Serves [] (run 3 0 [[⟨⟨3, true⟩, 5, true⟩], [⟨⟨5, true⟩, -1, true⟩]]) :=
  (dispatch_iff 3 _ (by decide)).mpr (by decide)

/-- Two connections are accepted before the first is readable: its event starts a worker
with the second, and so does the event of the second. -/
theorem two_accepts_mixed_up :
    ¬ Serves [] (run 3 0 [[⟨⟨3, true⟩, 5, true⟩], [⟨⟨3, true⟩, 6, true⟩],
      [⟨⟨5, true⟩, -1, true⟩, ⟨⟨6, true⟩, -1, true⟩]]) := by
  intro h
  exact absurd h.1 (by decide)

end FacePerception.Epoll
