import FacePerception.Server.GetString
import FacePerception.Server.Outcome
import FacePerception.Server.PostBody

/-!
# Checking in with GET and with POST

Both methods reach `send_vector` (`server/server_http.h`, lines 530–538), but
`get_path_method_query` hands it what follows the `'?'` of a GET, and for a POST the
whole URL (`strcpy(query,cur)`, line 339). The body of a POST, where its form data
are, never gets to the store.

Results:
* `getString_form`: `get_string` reads the two values of form data.
* `ends_accept_server`: a CGI request leaves the store as `send_vector` makes it.
* `checkIns_agree_iff`: when the two ways to check in agree.
* `getString_postUrl_iff`: what that says of the path.
-/

namespace FacePerception.Server

open CString Proc

/-! ## Form data -/

/-- A key or a value of form data. -/
def IsField (f : Bytes) : Prop :=
  ∀ c ∈ f, Ordinary c ∧ c ≠ ch ' ' ∧ c ≠ ch '=' ∧ c ≠ ch '&'

instance decidableIsField (f : Bytes) : Decidable (IsField f) :=
  List.decidableBAll (fun c => Ordinary c ∧ c ≠ ch ' ' ∧ c ≠ ch '=' ∧ c ≠ ch '&') f

/-- `k₁=v₁&k₂=v₂`. -/
def form (k₁ v₁ k₂ v₂ : Bytes) : Bytes :=
  k₁ ++ ch '=' :: (v₁ ++ ch '&' :: (k₂ ++ ch '=' :: v₂))

/-- The loops of `get_string` that look for a `'='` stop behind the first. -/
theorem skipEq_append {k : Bytes} (hk : ∀ c ∈ k, c ≠ ch '=' ∧ c ≠ NUL) (rest : Bytes) :
    skipEq (k ++ ch '=' :: rest) = rest := by
  induction k with
  | nil =>
    rw [List.nil_append, skipEq, if_neg]
    simp
  | cons c k ih =>
    obtain ⟨hc, hk'⟩ := List.forall_mem_cons.mp hk
    have hnext : deref (k ++ ch '=' :: rest) ≠ NUL := by
      cases k with
      | nil => show ch '=' ≠ NUL; decide
      | cons d k => exact (hk' d (by simp)).2
    rw [List.cons_append, skipEq, if_pos ⟨hc.1, hnext⟩]
    exact ih hk'

theorem takeWhile_nameByte {v : Bytes} (hv : ∀ c ∈ v, c ≠ ch '&' ∧ c ≠ NUL) (rest : Bytes) :
    (v ++ ch '&' :: rest).takeWhile nameByte = v ∧
      (v ++ ch '&' :: rest).dropWhile nameByte = ch '&' :: rest := by
  have hall : ∀ c ∈ v, nameByte c = true := fun c hc => decide_eq_true (hv c hc)
  rw [List.takeWhile_append_of_pos hall, List.dropWhile_append_of_pos hall]
  have hstop : ¬ nameByte (ch '&') = true := by decide
  rw [List.takeWhile_cons_of_neg hstop, List.dropWhile_cons_of_neg hstop, List.append_nil]
  exact ⟨rfl, rfl⟩

/-- `get_string` reads `v₁` and `v₂`, whatever stands in the places of the keys. -/
theorem getString_of_form {a v₁ b v₂ : Bytes} (ha : ∀ c ∈ a, c ≠ ch '=' ∧ c ≠ NUL)
    (hv₁ : ∀ c ∈ v₁, c ≠ ch '&' ∧ c ≠ NUL) (hb : ∀ c ∈ b, c ≠ ch '=' ∧ c ≠ NUL)
    (hv₂ : NUL ∉ v₂) : getString (form a v₁ b v₂) = (v₁, v₂) := by
  have hskip₁ := skipEq_append ha (v₁ ++ ch '&' :: (b ++ ch '=' :: v₂))
  obtain ⟨htake, hdrop⟩ := takeWhile_nameByte hv₁ (b ++ ch '=' :: v₂)
  have hskip₂ : skipEq (ch '&' :: (b ++ ch '=' :: v₂)) = v₂ :=
    skipEq_append (k := ch '&' :: b) (List.forall_mem_cons.mpr ⟨by decide, hb⟩) v₂
  rw [getString_eq, form, hskip₁, htake, hdrop, hskip₂, cstr_eq_self hv₂]

/-- **`get_string` reads the two values.** -/
theorem getString_form {k₁ v₁ k₂ v₂ : Bytes} (hk₁ : IsField k₁) (hv₁ : IsField v₁)
    (hk₂ : IsField k₂) (hv₂ : IsField v₂) : getString (form k₁ v₁ k₂ v₂) = (v₁, v₂) :=
  getString_of_form (fun c hc => ⟨(hk₁ c hc).2.2.1, (hk₁ c hc).1.ne_nul⟩)
    (fun c hc => ⟨(hv₁ c hc).2.2.2, (hv₁ c hc).1.ne_nul⟩)
    (fun c hc => ⟨(hk₂ c hc).2.2.1, (hk₂ c hc).1.ne_nul⟩) fun hmem => (hv₂ _ hmem).1.ne_nul rfl

theorem eq_append_skipEq {q : Bytes} (hnul : NUL ∉ q) (hne : skipEq q ≠ []) :
    ∃ a, ch '=' ∉ a ∧ q = a ++ ch '=' :: skipEq q := by
  induction q with
  | nil => exact absurd rfl hne
  | cons c q ih =>
    obtain ⟨-, hq⟩ := not_or.mp (List.mem_cons.not.mp hnul)
    by_cases hc : c = ch '='
    · rw [skipEq, if_neg fun h => h.1 hc]
      exact ⟨[], by simp, by rw [hc, List.nil_append]⟩
    · cases q with
      | nil => simp [skipEq] at hne
      | cons d q =>
        have hd : d ≠ NUL := fun hd => hq (hd ▸ List.mem_cons_self)
        have hnext : skipEq (c :: d :: q) = skipEq (d :: q) := if_pos ⟨hc, hd⟩
        rw [hnext] at hne ⊢
        obtain ⟨a, ha, hqa⟩ := ih hq hne
        exact ⟨c :: a, by simp [Ne.symm hc, ha], by rw [List.cons_append, ← hqa]⟩

/-- The strings from which `get_string` reads this name and this id, which is not empty. -/
theorem getString_eq_iff {u v₁ v₂ : Bytes} (hnul : NUL ∉ u) (hne : v₂ ≠ []) :
    getString u = (v₁, v₂) ↔
      ∃ a b, ch '=' ∉ a ∧ ch '&' ∉ v₁ ∧ ch '=' ∉ b ∧ u = form a v₁ b v₂ := by
  constructor
  · intro h
    rw [getString_eq, Prod.mk.injEq] at h
    obtain ⟨hname, hid⟩ := h
    have hrest : skipEq u ≠ [] := by
      intro hnil
      rw [hnil] at hid
      exact hne hid.symm
    obtain ⟨a, ha, hu⟩ := eq_append_skipEq hnul hrest
    generalize skipEq u = r at *
    have hnulr : NUL ∉ r := by
      rw [hu] at hnul
      simp only [List.mem_append, List.mem_cons, not_or] at hnul
      exact hnul.2.2
    have hr := List.takeWhile_append_dropWhile (p := nameByte) (l := r)
    rw [hname] at hr
    have hv₁ : ch '&' ∉ v₁ := by
      rw [← hname]
      exact fun hmem => absurd (List.mem_takeWhile_imp hmem) (by decide)
    have hstop : ∀ c rest, r.dropWhile nameByte = c :: rest → nameByte c = false := by
      intro c rest hdrop
      have hhead := List.head_dropWhile_not nameByte (by simp [hdrop] : r.dropWhile nameByte ≠ [])
      simpa [hdrop] using hhead
    generalize r.dropWhile nameByte = s at *
    have hnuls : NUL ∉ s := fun hmem => hnulr (hr ▸ List.mem_append_right v₁ hmem)
    have hskip : skipEq s ≠ [] := by
      intro hnil
      rw [hnil] at hid
      exact hne hid.symm
    obtain ⟨b', hb', hsb⟩ := eq_append_skipEq hnuls hskip
    have hnulv : NUL ∉ skipEq s := by
      intro hmem
      rw [hsb] at hnuls
      simp [hmem] at hnuls
    rw [cstr_eq_self hnulv] at hid
    rw [hid] at hsb
    -- the name stops at a `'&'`
    cases b' with
    | nil => exact absurd (hstop _ _ hsb) (by decide)
    | cons c b =>
      have hc : c = ch '&' := by
        have hend := hstop _ _ hsb
        have hne' : c ≠ NUL := fun h => hnuls (by simp [hsb, h])
        simpa [nameByte, hne'] using hend
      refine ⟨a, b, ha, hv₁, fun hmem => hb' (List.mem_cons_of_mem c hmem), ?_⟩
      rw [hu, form, ← hr, hsb, hc, List.cons_append]
  · rintro ⟨a, b, ha, hv₁, hb, rfl⟩
    simp only [form, List.mem_append, List.mem_cons, not_or] at hnul
    obtain ⟨ha', -, hv₁', -, hb', -, hv₂'⟩ := hnul
    have hbytes : ∀ {l : Bytes} {d : UInt8}, d ∉ l → NUL ∉ l → ∀ c ∈ l, c ≠ d ∧ c ≠ NUL := by
      intro l d hd hl c hc
      exact ⟨fun h => hd (h ▸ hc), fun h => hl (h ▸ hc)⟩
    exact getString_of_form (hbytes ha ha') (hbytes hv₁ hv₁') (hbytes hb hb') hv₂'

/-! ## The store after a request -/

variable (env : Env)

/-- **A CGI request leaves the store as `send_vector` makes it**, however it ends. -/
theorem ends_accept_server {w w' : World} {line rest : Bytes}
    (hfirst : FirstLine (SIZE - 1) w.sock line rest) (hcgi : IsCgi line)
    (hquery : queryWord line ≠ []) (hends : Ends (accept env) w w') :
    sendVector env.lib ⟨queryWord line, env.clock⟩ w.server = some w'.server := by
  have hnul := (hfirst.line SIZE_sub_one_pos).nul_notMem
  rcases (ends_iff _ _ _).mp hends with ⟨u, hreturns⟩ | ⟨e, hdies⟩
  · obtain ⟨line', rest', w₁, hfirst', hanswer, rfl⟩ := (returns_accept_iff _ _ _ _).mp hreturns
    obtain ⟨rfl, rfl⟩ := hfirst.unique SIZE_sub_one_pos hfirst'
    obtain ⟨server, lines, rest₂, hsend, -, ⟨-, rfl⟩ | ⟨-, -, rfl⟩⟩ :=
      (returns_answer_of_cgi env hnul hcgi _ _ _).mp hanswer
    · exact hsend
    · exact hsend
  · obtain ⟨line', rest', hfirst', hanswer⟩ := (dies_accept _ _ _ _).mp hdies
    obtain ⟨rfl, rfl⟩ := hfirst.unique SIZE_sub_one_pos hfirst'
    rw [answer_eq env hnul, if_pos hcgi, execPost, dies_bind] at hanswer
    rcases hanswer with hassert | ⟨u, t, hsend, hdies⟩
    · have hnone := ((dies_sendVectorProc _ _ _ _ _).mp hassert).1
      have hempty := (sendVector_eq_none_iff _ _ _).mp hnone
      exact absurd ((strlen_queryWord_eq_zero_iff hnul).mp hempty) hquery
    · obtain ⟨server, hserver, rfl⟩ := (returns_sendVectorProc _ _ _ _ _).mp hsend
      obtain ⟨lines, rest₂, -, -, -, -, rfl⟩ := (dies_execCgi _ _ _ _ _ _ _).mp hdies
      exact hserver

/-- A CGI request whose headers end comes to an end. -/
theorem exists_ends_accept {w : World} {line rest rest' : Bytes} {lines : List Bytes}
    (hfirst : FirstLine (SIZE - 1) w.sock line rest)
    (hheader : Header (SIZE - 1) rest lines rest') :
    ∃ w', Ends (accept env) w w' := by
  rw [← halts_iff_ends, halts_accept]
  refine ⟨line, rest, hfirst, ?_⟩
  rw [halts_answer env (hfirst.line SIZE_sub_one_pos).nul_notMem]
  intro _
  exact (exists_header_iff SIZE_sub_one_pos _).mp ⟨lines, rest', hheader⟩

/-! ## The two requests -/

/-- A request line, without its CRLF. -/
def requestLine (method url treaty : Bytes) : Bytes := method ++ ch ' ' :: (url ++ ch ' ' :: treaty)

theorem word_append {w : Bytes} (hne : w ≠ []) (hw : ch ' ' ∉ w) (rest : Bytes) :
    word (w ++ ch ' ' :: rest) = w := by
  rw [word, List.dropWhile_eq_append hw hne, List.takeWhile_ne_append hw]

theorem word_requestLine {method : Bytes} (hne : method ≠ []) (hm : ch ' ' ∉ method)
    (url treaty : Bytes) : word (requestLine method url treaty ++ [LF]) = method := by
  rw [requestLine, List.append_assoc]
  exact word_append hne hm _

theorem secondWord_requestLine {method : Bytes} (hne : method ≠ []) (hm : ch ' ' ∉ method)
    (url treaty : Bytes) :
    secondWord (requestLine method url treaty ++ [LF]) =
      word (url ++ ch ' ' :: (treaty ++ [LF])) := by
  rw [secondWord, word_requestLine hne hm, requestLine, List.append_assoc, List.cons_append,
    ← List.drop_drop, List.drop_left, List.drop_succ_cons, List.drop_zero, List.append_assoc,
    List.cons_append]

theorem word_ne_nil {s : Bytes} (h : ∃ c ∈ s, c ≠ ch ' ') : word s ≠ [] := by
  induction s with
  | nil => simp at h
  | cons d s ih =>
    by_cases hd : d = ch ' '
    · have htail : ∃ c ∈ s, c ≠ ch ' ' := by
        obtain ⟨c, hc, hne⟩ := h
        rcases List.mem_cons.mp hc with rfl | hc
        · exact absurd hd hne
        · exact ⟨c, hc, hne⟩
      rw [word, List.dropWhile_cons_of_pos (by simpa using hd)]
      exact ih htail
    · rw [word, List.dropWhile_cons_of_neg (by simpa using hd),
        List.takeWhile_cons_of_pos (by simpa using hd)]
      exact List.cons_ne_nil _ _

/-- The path of a request: one word without a `'?'`. -/
def IsPath (p : Bytes) : Prop := ∀ c ∈ p, Ordinary c ∧ c ≠ ch ' ' ∧ c ≠ ch '?'

instance decidableIsPath (p : Bytes) : Decidable (IsPath p) :=
  List.decidableBAll (fun c => Ordinary c ∧ c ≠ ch ' ' ∧ c ≠ ch '?') p

/-- The two requests leave the same records, one of them under `key`, whatever the
records are before, and whatever the system answers and the clock shows. -/
def CheckInsAgree (post get : Bytes) (key : Bytes × Bytes) : Prop :=
  ∀ (env : Env) (server : ServerHttp) (trace : List Event), ∃ w w',
    Ends (accept env) ⟨post, server, trace⟩ w ∧ Ends (accept env) ⟨get, server, trace⟩ w' ∧
      w.server.v = w'.server.v ∧ key ∈ w.server.v.map UserNode.key

theorem ordinary_requestLine {method url treaty : Bytes} (hm : ∀ c ∈ method, Ordinary c)
    (hurl : ∀ c ∈ url, Ordinary c) (htreaty : ∀ c ∈ treaty, Ordinary c) :
    ∀ c ∈ requestLine method url treaty, Ordinary c := by
  have hspace : Ordinary (ch ' ') := by decide
  intro c hc
  rw [requestLine, List.mem_append, List.mem_cons, List.mem_append, List.mem_cons] at hc
  rcases hc with hc | rfl | hc | rfl | hc
  · exact hm c hc
  · exact hspace
  · exact hurl c hc
  · exact hspace
  · exact htreaty c hc

/-- A POST asks `send_vector` for its whole URL. -/
theorem queryWord_post (p treaty : Bytes) :
    IsCgi (requestLine (bytes "POST") p treaty ++ [LF]) ∧
      queryWord (requestLine (bytes "POST") p treaty ++ [LF]) =
        word (p ++ ch ' ' :: (treaty ++ [LF])) := by
  have hne : bytes "POST" ≠ [] := by decide
  have hm : ch ' ' ∉ bytes "POST" := by decide
  have hword := word_requestLine hne hm p treaty
  refine ⟨Or.inl hword, ?_⟩
  rw [queryWord, hword, if_neg (by decide), secondWord_requestLine hne hm]

/-- A GET asks it for what follows the `'?'`. -/
theorem queryWord_get {p d : Bytes} (hp : IsPath p) (hd : ch ' ' ∉ d) (treaty : Bytes) :
    IsCgi (requestLine (bytes "GET") (p ++ ch '?' :: d) treaty ++ [LF]) ∧
      queryWord (requestLine (bytes "GET") (p ++ ch '?' :: d) treaty ++ [LF]) = d := by
  have hne : bytes "GET" ≠ [] := by decide
  have hm : ch ' ' ∉ bytes "GET" := by decide
  have hword := word_requestLine hne hm (p ++ ch '?' :: d) treaty
  have hurl : ch ' ' ∉ p ++ ch '?' :: d := by
    intro hmem
    rcases List.mem_append.mp hmem with hmem | hmem
    · exact (hp _ hmem).2.1 rfl
    rcases List.mem_cons.mp hmem with hmem | hmem
    · exact absurd hmem (by decide)
    · exact hd hmem
  have hsecond : secondWord (requestLine (bytes "GET") (p ++ ch '?' :: d) treaty ++ [LF]) =
      p ++ ch '?' :: d := by
    rw [secondWord_requestLine hne hm, word_append (by simp) hurl]
  have hdrop : (p ++ ch '?' :: d).dropWhile (· ≠ ch '?') = ch '?' :: d :=
    List.dropWhile_ne_append (fun hmem => (hp _ hmem).2.2 rfl) d
  refine ⟨Or.inr ⟨hword, ?_⟩, ?_⟩
  · rw [hsecond]
    simp
  · rw [queryWord, hword, if_pos rfl, hsecond, hdrop, List.tail_cons]

theorem ordinary_form {k₁ v₁ k₂ v₂ : Bytes} (hk₁ : IsField k₁) (hv₁ : IsField v₁)
    (hk₂ : IsField k₂) (hv₂ : IsField v₂) :
    ∀ c ∈ form k₁ v₁ k₂ v₂, Ordinary c ∧ c ≠ ch ' ' := by
  have heq : Ordinary (ch '=') ∧ ch '=' ≠ ch ' ' := by decide
  have hand : Ordinary (ch '&') ∧ ch '&' ≠ ch ' ' := by decide
  intro c hc
  simp only [form, List.mem_append, List.mem_cons] at hc
  rcases hc with hc | rfl | hc | rfl | hc | rfl | hc
  · exact ⟨(hk₁ c hc).1, (hk₁ c hc).2.1⟩
  · exact heq
  · exact ⟨(hv₁ c hc).1, (hv₁ c hc).2.1⟩
  · exact hand
  · exact ⟨(hk₂ c hc).1, (hk₂ c hc).2.1⟩
  · exact heq
  · exact ⟨(hv₂ c hc).1, (hv₂ c hc).2.1⟩

/-! ## The store after a check-in -/

/-- A check-in puts its pair into the store, as the only one if there was none. -/
theorem key_mem_of_sendVector {lib : TimeLib} {c : Scan} {s s' : ServerHttp}
    (hq : strlen c.query > 0) (hsend : sendVector lib c s = some s') :
    c.key ∈ s'.v.map UserNode.key ∧ (s.v = [] → s'.v.map UserNode.key = [c.key]) := by
  rw [sendVector_eq lib c s hq, Option.some.injEq] at hsend
  have hkeys := (attendance lib).keys_upsert s.v c
  rw [← hsend]
  refine ⟨?_, fun hempty => ?_⟩
  · show c.key ∈ ((attendance lib).upsert s.v c).map (attendance lib).keyOf
    rw [hkeys]
    split_ifs with hmem
    · exact hmem
    · exact List.mem_append_right _ List.mem_cons_self
  · show ((attendance lib).upsert s.v c).map (attendance lib).keyOf = [c.key]
    rw [hkeys, hempty]
    rfl

/-- `send_vector` looks at the pair in its query only. -/
theorem sendVector_congr (lib : TimeLib) {q q' : Bytes} (hq : strlen q > 0) (hq' : strlen q' > 0)
    (h : getString q = getString q') (t : ℤ) (s : ServerHttp) :
    sendVector lib ⟨q, t⟩ s = sendVector lib ⟨q', t⟩ s := by
  rw [sendVector, sendVector, if_pos hq, if_pos hq', h]

/-! ## The two ways to check in -/

section CheckIns

variable (p treaty k₁ v₁ k₂ v₂ : Bytes) (before after lines : List Bytes) (k : ℕ)

/-- `POST p` with the form data as its body. -/
def postCheckIn : Bytes :=
  requestLine (bytes "POST") p treaty ++ CR :: LF ::
    postRequest before after k (form k₁ v₁ k₂ v₂).length (form k₁ v₁ k₂ v₂)

/-- `GET p?d` where `d` is the form data. -/
def getCheckIn : Bytes :=
  requestLine (bytes "GET") (p ++ ch '?' :: form k₁ v₁ k₂ v₂) treaty ++ CR :: LF ::
    (headerBlock lines ++ [CR, LF])

/-- The sizes of the two requests are within the buffers. -/
structure CheckInsFit : Prop where
  post : (requestLine (bytes "POST") p treaty).length < SIZE - 1
  get : (requestLine (bytes "GET") (p ++ ch '?' :: form k₁ v₁ k₂ v₂) treaty).length < SIZE - 1
  announces : Announces before after k (form k₁ v₁ k₂ v₂).length
  lines : ∀ l ∈ lines, IsHeaderLine l ∧ l.length < SIZE - 1

variable {p treaty k₁ v₁ k₂ v₂ before after lines k}

/-- The URL of the POST: `p`, unless that is empty. -/
def postUrl (p treaty : Bytes) : Bytes := word (p ++ ch ' ' :: (treaty ++ [LF]))

theorem postUrl_eq (hp : IsPath p) (hne : p ≠ []) : postUrl p treaty = p :=
  word_append hne (fun h => (hp _ h).2.1 rfl) _

theorem strlen_queryWord_pos {line rest sock : Bytes} (hfirst : FirstLine (SIZE - 1) sock line rest)
    (hne : queryWord line ≠ []) : strlen (queryWord line) > 0 := by
  have hnul := (hfirst.line SIZE_sub_one_pos).nul_notMem
  have hzero := mt (strlen_queryWord_eq_zero_iff hnul).mp hne
  omega

/-- The POST comes to an end, and leaves the store as `send_vector` of its URL does. -/
theorem ends_postCheckIn (hp : IsPath p) (htreaty : ∀ c ∈ treaty, Ordinary c)
    (hfit : CheckInsFit p treaty k₁ v₁ k₂ v₂ before after lines k) (server : ServerHttp)
    (trace : List Event) :
    strlen (postUrl p treaty) > 0 ∧ ∃ w,
      Ends (accept env) ⟨postCheckIn p treaty k₁ v₁ k₂ v₂ before after k, server, trace⟩ w ∧
      ∀ w, Ends (accept env) ⟨postCheckIn p treaty k₁ v₁ k₂ v₂ before after k, server, trace⟩ w →
        sendVector env.lib ⟨postUrl p treaty, env.clock⟩ server = some w.server := by
  obtain ⟨hcgi, hquery⟩ := queryWord_post p treaty
  have hfirst := firstLine_requestLine (ordinary_requestLine (ordinary_of_all (by decide))
    (fun c hc => (hp c hc).1) htreaty) hfit.post
    (postRequest before after k (form k₁ v₁ k₂ v₂).length (form k₁ v₁ k₂ v₂))
  have hne : queryWord (requestLine (bytes "POST") p treaty ++ [LF]) ≠ [] := by
    rw [hquery]
    exact word_ne_nil ⟨LF, by simp, by decide⟩
  obtain ⟨w, hends⟩ := exists_ends_accept env
    (w := ⟨postCheckIn p treaty k₁ v₁ k₂ v₂ before after k, server, trace⟩) hfirst
    (hfit.announces.header _)
  have hlen := strlen_queryWord_pos hfirst hne
  have hserver : ∀ w, Ends (accept env)
      ⟨postCheckIn p treaty k₁ v₁ k₂ v₂ before after k, server, trace⟩ w → _ :=
    fun w hends => ends_accept_server env hfirst hcgi hne hends
  rw [hquery] at hlen
  simp only [hquery] at hserver
  exact ⟨hlen, w, hends, hserver⟩

/-- The GET comes to an end, and leaves the store as `send_vector` of the form data does. -/
theorem ends_getCheckIn (hp : IsPath p) (htreaty : ∀ c ∈ treaty, Ordinary c)
    (hform : ∀ c ∈ form k₁ v₁ k₂ v₂, Ordinary c ∧ c ≠ ch ' ')
    (hfit : CheckInsFit p treaty k₁ v₁ k₂ v₂ before after lines k) (server : ServerHttp)
    (trace : List Event) :
    strlen (form k₁ v₁ k₂ v₂) > 0 ∧ ∃ w,
      Ends (accept env) ⟨getCheckIn p treaty k₁ v₁ k₂ v₂ lines, server, trace⟩ w ∧
      ∀ w, Ends (accept env) ⟨getCheckIn p treaty k₁ v₁ k₂ v₂ lines, server, trace⟩ w →
        sendVector env.lib ⟨form k₁ v₁ k₂ v₂, env.clock⟩ server = some w.server := by
  have hmark : Ordinary (ch '?') := by decide
  have hurl : ∀ c ∈ p ++ ch '?' :: form k₁ v₁ k₂ v₂, Ordinary c := by
    intro c hc
    rcases List.mem_append.mp hc with hc | hc
    · exact (hp c hc).1
    rcases List.mem_cons.mp hc with rfl | hc
    · exact hmark
    · exact (hform c hc).1
  obtain ⟨hcgi, hquery⟩ := queryWord_get hp (fun h => (hform _ h).2 rfl) treaty
  have hfirst := firstLine_requestLine (ordinary_requestLine (ordinary_of_all (by decide)) hurl
    htreaty) hfit.get (headerBlock lines ++ [CR, LF])
  have hne : queryWord (requestLine (bytes "GET") (p ++ ch '?' :: form k₁ v₁ k₂ v₂) treaty ++
      [LF]) ≠ [] := by
    rw [hquery]
    simp [form]
  obtain ⟨w, hends⟩ := exists_ends_accept env
    (w := ⟨getCheckIn p treaty k₁ v₁ k₂ v₂ lines, server, trace⟩) hfirst
    (header_block SIZE_sub_one_pos lines [] hfit.lines)
  have hlen := strlen_queryWord_pos hfirst hne
  have hserver : ∀ w, Ends (accept env)
      ⟨getCheckIn p treaty k₁ v₁ k₂ v₂ lines, server, trace⟩ w → _ :=
    fun w hends => ends_accept_server env hfirst hcgi hne hends
  rw [hquery] at hlen
  simp only [hquery] at hserver
  exact ⟨hlen, w, hends, hserver⟩

/-- A POST to the empty store leaves one record, under the pair in its URL. -/
theorem getString_of_agree (hp : IsPath p) (htreaty : ∀ c ∈ treaty, Ordinary c)
    (hfit : CheckInsFit p treaty k₁ v₁ k₂ v₂ before after lines k) {get : Bytes}
    {key : Bytes × Bytes}
    (hagree : CheckInsAgree (postCheckIn p treaty k₁ v₁ k₂ v₂ before after k) get key) :
    getString (postUrl p treaty) = key := by
  obtain ⟨hlen, -, -, hserver⟩ :=
    ends_postCheckIn bareEnv hp htreaty hfit ServerHttp.init []
  obtain ⟨w, w', hpost, -, -, hmem⟩ := hagree bareEnv ServerHttp.init []
  have hkeys := (key_mem_of_sendVector hlen (hserver w hpost)).2 rfl
  rw [hkeys, List.mem_singleton] at hmem
  exact hmem.symm

/-- **GET and POST check-ins** agree exactly when `get_string` reads the name and the id
in the URL of the POST. -/
theorem checkIns_agree_iff (hp : IsPath p) (htreaty : ∀ c ∈ treaty, Ordinary c)
    (hk₁ : IsField k₁) (hv₁ : IsField v₁) (hk₂ : IsField k₂) (hv₂ : IsField v₂)
    (hfit : CheckInsFit p treaty k₁ v₁ k₂ v₂ before after lines k) :
    CheckInsAgree (postCheckIn p treaty k₁ v₁ k₂ v₂ before after k)
        (getCheckIn p treaty k₁ v₁ k₂ v₂ lines) (v₁, v₂) ↔
      getString (postUrl p treaty) = (v₁, v₂) := by
  constructor
  · exact getString_of_agree hp htreaty hfit
  · intro hpair env server trace
    obtain ⟨hlenPost, w, hpost, hserverPost⟩ := ends_postCheckIn env hp htreaty hfit server trace
    obtain ⟨hlenGet, w', hget, hserverGet⟩ := ends_getCheckIn env hp htreaty
      (ordinary_form hk₁ hv₁ hk₂ hv₂) hfit server trace
    have hpairs : getString (postUrl p treaty) = getString (form k₁ v₁ k₂ v₂) := by
      rw [hpair, getString_form hk₁ hv₁ hk₂ hv₂]
    have hsame := sendVector_congr env.lib hlenPost hlenGet hpairs env.clock server
    rw [hserverPost w hpost, hserverGet w' hget, Option.some.injEq] at hsame
    have hkey := (key_mem_of_sendVector hlenPost (hserverPost w hpost)).1
    rw [Scan.key, hpair] at hkey
    exact ⟨w, w', hpost, hget, congrArg ServerHttp.v hsame, hkey⟩

/-- What that says of the path, where the id is not empty: the two values stand in it between
some other bytes as they do in the form data. -/
theorem getString_postUrl_iff (hp : IsPath p) (hne : p ≠ []) (hv₂ : v₂ ≠ []) :
    getString (postUrl p treaty) = (v₁, v₂) ↔
      ∃ a b, ch '=' ∉ a ∧ ch '&' ∉ v₁ ∧ ch '=' ∉ b ∧ p = form a v₁ b v₂ := by
  rw [postUrl_eq hp hne]
  exact getString_eq_iff (fun hmem => (hp _ hmem).1.ne_nul rfl) hv₂

/-- `POST /=ann&=1`, whose URL reads as the form data `name=ann&id=1` do. -/
theorem checkIns_agree_iff_example :
    CheckInsAgree
      (postCheckIn (bytes "/=ann&=1") (bytes "HTTP/1.0") (bytes "name") (bytes "ann") (bytes "id")
        (bytes "1") [] [] 1)
      (getCheckIn (bytes "/=ann&=1") (bytes "HTTP/1.0") (bytes "name") (bytes "ann") (bytes "id")
        (bytes "1") []) (bytes "ann", bytes "1") :=
  (checkIns_agree_iff (by decide) (ordinary_of_all (by decide)) (by decide) (by decide)
    (by decide) (by decide) ⟨by decide, by decide, ⟨by decide, by decide, by decide⟩,
      by decide⟩).mpr (by decide)

/-- `POST /a` with the form data `name=ann&id=1`: what is recorded has neither the name
nor the id. -/
theorem checkIns_differ :
    ¬ CheckInsAgree
      (postCheckIn (bytes "/a") (bytes "HTTP/1.0") (bytes "name") (bytes "ann") (bytes "id")
        (bytes "1") [] [] 1)
      (getCheckIn (bytes "/a") (bytes "HTTP/1.0") (bytes "name") (bytes "ann") (bytes "id")
        (bytes "1") []) (bytes "ann", bytes "1") := by
  intro hagree
  have hfit : CheckInsFit (bytes "/a") (bytes "HTTP/1.0") (bytes "name") (bytes "ann") (bytes "id")
      (bytes "1") [] [] [] 1 :=
    ⟨by decide, by decide, ⟨by decide, by decide, by decide⟩, by decide⟩
  have hpair := getString_of_agree (by decide) (ordinary_of_all (by decide)) hfit hagree
  exact absurd hpair (by decide)

end CheckIns

end FacePerception.Server
