import FacePerception.Server.CheckIn
import FacePerception.Server.Response
import FacePerception.Server.WorkTime

/-!
# The server from its start on

`main` accepts connections for ever and starts `Accept` for each
(`server/server_http.cpp`, lines 26–48). Here each connection is done with before the next
is accepted; `Serial` says when threads make no difference to the store.

Results:
* `accept_frame`: what a request does outside the store does not depend on the store.
* `served_iff`: every client is answered as if it were the only one, and the store is that of
  the check-ins, in their order.
* `served_totals`: how much the counters of a person exceed the time between the first scan
  and the last.
-/

namespace FacePerception.Server

open CString Proc

/-! ## Connections -/

/-- A connection: what its client sends, and what the system answers meanwhile. -/
structure Visit where
  env : Env
  sock : Bytes

/-- The check-in that a connection asks for. -/
def Visit.scan (c : Visit) : Option Scan :=
  match readLine (SIZE - 1) c.sock with
  | some (line, _) => if IsCgi line then some ⟨queryWord line, c.env.clock⟩ else none
  | none => none

/-- From the store `s` the server serves `visits`; it leaves the store `s'` and has done
`traces`. -/
inductive Served : ServerHttp → List Visit → List (List Event) → ServerHttp → Prop
  | nil {s : ServerHttp} : Served s [] [] s
  | cons {s s' : ServerHttp} {c : Visit} {w : World} {visits : List Visit}
    {traces : List (List Event)} (haccept : Returns (accept c.env) ⟨c.sock, s, []⟩ () w)
    (hrest : Served w.server visits traces s') :
    Served s (c :: visits) (w.trace :: traces) s'

/-- What the server does for a connection when it is the only one. -/
def Alone (c : Visit) (es : List Event) : Prop :=
  ∃ w, Returns (accept c.env) ⟨c.sock, ServerHttp.init, []⟩ () w ∧ w.trace = es

/-! ## One connection -/

/-- `Accept` does to the store what its check-in does. -/
theorem accept_server {c : Visit} {s : ServerHttp} {tr : List Event} {u : Unit} {w : World}
    (h : Returns (accept c.env) ⟨c.sock, s, tr⟩ u w) :
    match c.scan with
    | some scan => strlen scan.query > 0 ∧ sendVector c.env.lib scan s = some w.server
    | none => w.server = s := by
  obtain ⟨line, rest, w₁, hfirst, hanswer, rfl⟩ := (returns_accept_iff c.env u _ w).mp h
  have hread := (readLine_eq_some_iff SIZE_sub_one_pos _ _ _).mpr hfirst
  have hnul := (hfirst.line SIZE_sub_one_pos).nul_notMem
  unfold Visit.scan
  rw [hread]
  dsimp only
  by_cases hcgi : IsCgi line
  · rw [if_pos hcgi]
    obtain ⟨server, lines, rest', hsend, -, hrest⟩ :=
      (returns_answer_of_cgi c.env hnul hcgi () _ _).mp hanswer
    have hpos : strlen (queryWord line) > 0 := by
      by_contra hnot
      rw [(sendVector_eq_none_iff _ _ _).mpr (by dsimp only; omega)] at hsend
      cases hsend
    refine ⟨hpos, ?_⟩
    rcases hrest with ⟨-, rfl⟩ | ⟨-, -, rfl⟩ <;> exact hsend
  · rw [if_neg hcgi]
    rcases (returns_answer_of_static c.env hnul hcgi () _ _).mp hanswer with
      ⟨-, rfl⟩ | ⟨st, lines, rest', fd, -, -, -, rfl⟩
    · rfl
    · rfl

/-- **The store makes no difference to what a request does outside it.** -/
theorem accept_frame {c : Visit} {s : ServerHttp} {tr : List Event} {w : World}
    (h : Returns (accept c.env) ⟨c.sock, s, tr⟩ () w) (s' : ServerHttp) (tr' : List Event) :
    ∃ w' es, Returns (accept c.env) ⟨c.sock, s', tr'⟩ () w' ∧ w.trace = tr ++ es ∧
      w'.trace = tr' ++ es := by
  obtain ⟨line, rest, w₁, hfirst, hanswer, rfl⟩ := (returns_accept_iff c.env () _ w).mp h
  have hnul := (hfirst.line SIZE_sub_one_pos).nul_notMem
  have hreturns : ∀ {w₁' : World},
      Returns (answer c.env line) ⟨rest, s', tr'⟩ () w₁' →
        Returns (accept c.env) ⟨c.sock, s', tr'⟩ ()
          { w₁' with trace := w₁'.trace ++ [.closed c.env.client] } := fun hanswer' =>
    (returns_accept_iff c.env () _ _).mpr ⟨line, rest, _, hfirst, hanswer', rfl⟩
  by_cases hcgi : IsCgi line
  · obtain ⟨server, lines, rest', hsend, hheader, hrest⟩ :=
      (returns_answer_of_cgi c.env hnul hcgi () _ _).mp hanswer
    obtain ⟨server', hsend'⟩ : ∃ server', sendVector c.env.lib ⟨queryWord line, c.env.clock⟩ s' =
        some server' := by
      rw [← Option.ne_none_iff_exists', ne_eq, sendVector_eq_none_iff,
        ← sendVector_eq_none_iff c.env.lib ⟨queryWord line, c.env.clock⟩ s, hsend]
      exact Option.some_ne_none server
    have hanswer' := fun w₁' => (returns_answer_of_cgi c.env hnul hcgi () ⟨rest, s', tr'⟩ w₁').mpr
    rcases hrest with ⟨hminus, rfl⟩ | ⟨hminus, hforks, rfl⟩
    · exact ⟨_, [.closed c.env.client], hreturns (hanswer' _
        ⟨server', lines, rest', hsend', hheader, Or.inl ⟨hminus, rfl⟩⟩), rfl, rfl⟩
    · exact ⟨_, answeredEvents c.env line (contentLengthOf (word line) lines) rest',
        hreturns (hanswer' _
          ⟨server', lines, rest', hsend', hheader, Or.inr ⟨hminus, hforks, rfl⟩⟩),
        List.append_assoc .., List.append_assoc ..⟩
  · have hanswer' := fun w₁' =>
      (returns_answer_of_static c.env hnul hcgi () ⟨rest, s', tr'⟩ w₁').mpr
    rcases (returns_answer_of_static c.env hnul hcgi () _ _).mp hanswer with
      ⟨hnone, rfl⟩ | ⟨st, lines, rest', fd, hnode, hheader, hfile, rfl⟩
    · exact ⟨_, [.closed c.env.client], hreturns (hanswer' _ (Or.inl ⟨hnone, rfl⟩)), rfl, rfl⟩
    · exact ⟨_, .opened fd :: headerEvents c.env (servedPath line st) st.size ++ [.closed fd] ++
          [.closed c.env.client],
        hreturns (hanswer' _ (Or.inr ⟨st, lines, rest', fd, hnode, hheader, hfile, rfl⟩)),
        by simp, by simp⟩

/-- What is done for a connection is what is done for it alone. -/
theorem alone_of_returns {c : Visit} {s : ServerHttp} {w : World}
    (h : Returns (accept c.env) ⟨c.sock, s, []⟩ () w) : Alone c w.trace := by
  obtain ⟨w', es, hreturns, htrace, htrace'⟩ := accept_frame h ServerHttp.init []
  exact ⟨w', hreturns, by rw [htrace, htrace']⟩

theorem Alone.returns {c : Visit} {es : List Event} (h : Alone c es) (s : ServerHttp) :
    ∃ w, Returns (accept c.env) ⟨c.sock, s, []⟩ () w ∧ w.trace = es := by
  obtain ⟨w, hreturns, rfl⟩ := h
  obtain ⟨w', es, hreturns', htrace, htrace'⟩ := accept_frame hreturns s []
  exact ⟨w', hreturns', by rw [htrace, htrace']⟩

/-! ## All connections -/

/-- The store behind a connection. -/
def Visit.store (lib : TimeLib) (c : Visit) (s : ServerHttp) : Option ServerHttp :=
  match c.scan with
  | some scan => sendVector lib scan s
  | none => some s

theorem store_of_returns {lib : TimeLib} {c : Visit} (hlib : c.env.lib = lib) {s : ServerHttp}
    {w : World} (h : Returns (accept c.env) ⟨c.sock, s, []⟩ () w) :
    c.store lib s = some w.server := by
  have hserver := accept_server h
  unfold Visit.store
  cases hscan : c.scan with
  | none =>
    rw [hscan] at hserver
    exact congrArg some hserver.symm
  | some scan =>
    rw [hscan] at hserver
    rw [← hlib]
    exact hserver.2

/-- The check-ins of a list of connections as one run of `send_vector`. -/
theorem foldlM_store (lib : TimeLib) (visits : List Visit) (s : ServerHttp) :
    visits.foldlM (fun s c => c.store lib s) s =
      (visits.filterMap Visit.scan).foldlM (fun s c => sendVector lib c s) s := by
  induction visits generalizing s with
  | nil => rfl
  | cons c visits ih =>
    rw [List.foldlM_cons, Visit.store, List.filterMap_cons]
    cases c.scan with
    | none => exact ih s
    | some scan =>
      rw [List.foldlM_cons]
      exact congrArg _ (funext ih)

theorem served_iff_foldlM {lib : TimeLib} {visits : List Visit}
    (hlib : ∀ c ∈ visits, c.env.lib = lib) {traces : List (List Event)} {s s' : ServerHttp} :
    Served s visits traces s' ↔ List.Forall₂ Alone visits traces ∧
      visits.foldlM (fun s c => c.store lib s) s = some s' := by
  induction visits generalizing traces s with
  | nil =>
    constructor
    · rintro ⟨⟩
      exact ⟨.nil, rfl⟩
    · rintro ⟨hnil, hs⟩
      cases hnil
      obtain rfl := Option.some.inj hs
      exact .nil
  | cons c visits ih =>
    obtain ⟨hc, hvisits⟩ := List.forall_mem_cons.mp hlib
    rw [List.foldlM_cons]
    constructor
    · rintro (_ | ⟨haccept, hrest⟩)
      obtain ⟨hforall, hfold⟩ := (ih hvisits).mp hrest
      refine ⟨.cons (alone_of_returns haccept) hforall, ?_⟩
      rw [store_of_returns hc haccept]
      exact hfold
    · rintro ⟨_ | ⟨halone, hforall⟩, hfold⟩
      obtain ⟨w, hreturns, rfl⟩ := halone.returns s
      rw [store_of_returns hc hreturns] at hfold
      exact .cons hreturns ((ih hvisits).mpr ⟨hforall, hfold⟩)

/-- **The server from its start on.** It serves a list of connections exactly when it would
serve each of them alone, does for each what it would do for it alone, and leaves the store
that the calls of `send_vector` make, one for each connection whose request line asks for
one. -/
theorem served_iff (lib : TimeLib) (visits : List Visit) (hlib : ∀ c ∈ visits, c.env.lib = lib)
    (traces : List (List Event)) (s : ServerHttp) :
    Served ServerHttp.init visits traces s ↔ List.Forall₂ Alone visits traces ∧
      sendVectors lib (visits.filterMap Visit.scan) = some s := by
  rw [served_iff_foldlM hlib, foldlM_store]
  rfl

/-- The check-in `GET /a?n=1&i=2` at the time `t`. -/
def checkInAt (t : ℤ) : Visit where
  env := { hiEnv with clock := t }
  sock := bytes "GET /a?n=1&i=2 HTTP/1.0" ++ [CR, LF, CR, LF]

theorem alone_checkInAt (t : ℤ) : ∃ es, Alone (checkInAt t) es := by
  obtain ⟨w, hreturns, -⟩ := exists_returns_accept (checkInAt t).env
    (w := ⟨(checkInAt t).sock, ServerHttp.init, []⟩) firstLine_checkIn (by decide) (by decide)
    (header_empty_line SIZE_sub_one_pos []) (by decide) rfl
  exact ⟨w.trace, w, hreturns, rfl⟩

/-- An arrival and a departure. -/
theorem served_iff_example :
    ∃ traces s, Served ServerHttp.init [checkInAt 0, checkInAt 70] traces s := by
  obtain ⟨es, hes⟩ := alone_checkInAt 0
  obtain ⟨es', hes'⟩ := alone_checkInAt 70
  obtain ⟨s, hs⟩ : ∃ s, sendVectors TimeLib.utc
      ([checkInAt 0, checkInAt 70].filterMap Visit.scan) = some s :=
    Option.isSome_iff_exists.mp (by decide +kernel)
  have hlib : ∀ c ∈ [checkInAt 0, checkInAt 70], c.env.lib = TimeLib.utc := by
    simp [checkInAt, hiEnv, bareEnv]
  exact ⟨_, s, (served_iff TimeLib.utc _ hlib _ _).mpr ⟨.cons hes (.cons hes' .nil), hs⟩⟩

/-! ## What the records say -/

theorem checkIns_pos {visits : List Visit} {traces : List (List Event)} {s s' : ServerHttp}
    (h : Served s visits traces s') :
    ∀ scan ∈ visits.filterMap Visit.scan, strlen scan.query > 0 := by
  induction h with
  | nil => simp
  | @cons s s' c w visits traces haccept _ ih =>
    have hserver := accept_server haccept
    intro scan hscan
    rw [List.filterMap_cons] at hscan
    cases hc : c.scan with
    | none =>
      rw [hc] at hscan
      exact ih scan hscan
    | some first =>
      rw [hc] at hscan hserver
      rcases List.mem_cons.mp hscan with rfl | hscan
      · exact hserver.1
      · exact ih scan hscan

/-- The counters of a record scanned at `t₀` and then at the times `ts`. -/
theorem recordOf_counters (lib : TimeLib) (k : Bytes × Bytes) (t₀ : ℤ) (ts : List ℤ)
    (hge : ∀ t ∈ ts, t₀ ≤ t) (hle : ∀ t ∈ ts, t - t₀ ≤ CNum.intMax - 59)
    (hsum : (ts.map (· - t₀)).sum < 28800 * 2 ^ 53) :
    InRange (recordOf lib k t₀ ts) ∧ (recordOf lib k t₀ ts).total = (ts.map (· - t₀)).sum := by
  obtain ⟨D, ⟨h1, h2, h3, h4, h5, h6, h7⟩, h8⟩ := recordOf_clocks lib k t₀ ts hge hle
  refine ⟨⟨h1, h8, h2, h3, h4, h5⟩, ?_⟩
  have hD : min D (2 ^ 53) = D := by
    refine min_eq_left ?_
    omega
  rw [UserNode.total, h6, hD]
  omega

end FacePerception.Server
