import FacePerception.Server.FormData

/-!
# `recv_str`

Model of `recv_str` (`cgi_bin/show.cpp`, lines 10–35), the parser of the CGI program
`show`. It goes over the query once, writes `'\0'` over every `'&'` it meets, and stops
at the second `'='`; `name` and `id` point into the string it has changed.

Results:
* `recvStr_one`, `recvStr_two`, `recvStr_none`: what it finds, by the number of `'='`.
* `getString_eq_recvStr_iff`: the queries on which `get_string` of the server finds the
  same name and the same id.
-/

namespace FacePerception.Cgi

open CString
open FacePerception.Server (getString skipEq nameByte getString_eq skipEq_eq_tail skipEq_append
  takeWhile_nameByte)

/-! ## The scan -/

/-- The string when the loop has ended, and the offsets `name` and `id` point to; `none`
is `NULL`. -/
structure Scanned where
  str : Bytes
  name : Option ℕ
  id : Option ℕ
deriving DecidableEq

/-- Lines 23–24: what is left at `cur` of the byte `c`. -/
def cutByte (c : UInt8) : UInt8 := if c = ch '&' then NUL else c

/-- The loop of lines 16–31, with `seen` before `cur` and the rest of the string from
`cur` on. -/
def recvLoop : Option ℕ → Bytes → Bytes → Scanned
  | name, seen, [] => ⟨seen, name, none⟩
  | name, seen, c :: rest =>
    if c = NUL then ⟨seen ++ c :: rest, name, none⟩
    else if c = ch '=' ∧ name = none then
      recvLoop (some (seen.length + 1)) (seen ++ [c]) rest
    else if cutByte c = ch '=' ∧ name ≠ none then
      ⟨seen ++ cutByte c :: rest, name, some (seen.length + 1)⟩
    else recvLoop name (seen ++ [cutByte c]) rest

/-- `recv_str` up to what it prints (lines 10–31). -/
def recvStr (str : Bytes) : Scanned := recvLoop none [] str

/-- The string a pointer into `str` points to; for `NULL` the empty string. -/
def strAt (str : Bytes) : Option ℕ → Bytes
  | none => []
  | some p => cstr (str.drop p)

/-- The two strings that are printed. -/
def Scanned.strings (s : Scanned) : Bytes × Bytes := (strAt s.str s.name, strAt s.str s.id)

/-- A string with `'\0'` for each `'&'`. -/
def cut (w : Bytes) : Bytes := w.map cutByte

@[simp] theorem length_cut (w : Bytes) : (cut w).length = w.length := List.length_map _

@[simp] theorem cut_cons (c : UInt8) (w : Bytes) : cut (c :: w) = cutByte c :: cut w := rfl

theorem cutByte_ne_eq {c : UInt8} (h : c ≠ ch '=') : cutByte c ≠ ch '=' := by
  unfold cutByte
  split_ifs
  · decide
  · exact h

/-- Over bytes that are no `'='` the loop does nothing but cut. -/
theorem recvLoop_append (w : Bytes) : ch '=' ∉ w → NUL ∉ w →
    ∀ (name : Option ℕ) (seen s : Bytes),
      recvLoop name seen (w ++ s) = recvLoop name (seen ++ cut w) s := by
  induction w with
  | nil =>
    intro _ _ name seen s
    rw [cut, List.map_nil, List.append_nil, List.nil_append]
  | cons c w ih =>
    intro heq hnul name seen s
    obtain ⟨hc, heq⟩ := not_or.mp (List.mem_cons.not.mp heq)
    obtain ⟨hc', hnul⟩ := not_or.mp (List.mem_cons.not.mp hnul)
    have hcut := cutByte_ne_eq (Ne.symm hc)
    rw [List.cons_append, recvLoop, if_neg (Ne.symm hc'), if_neg (fun h => hc h.1.symm),
      if_neg (fun h => hcut h.1), ih heq hnul, cut_cons, List.append_assoc, List.singleton_append]

/-- The first `'='`. -/
theorem recvLoop_first (seen s : Bytes) :
    recvLoop none seen (ch '=' :: s) = recvLoop (some (seen.length + 1)) (seen ++ [ch '=']) s := by
  have hnul : ch '=' ≠ NUL := by decide
  rw [recvLoop, if_neg hnul, if_pos ⟨rfl, rfl⟩]

/-- The second `'='`. -/
theorem recvLoop_second (p : ℕ) (seen s : Bytes) :
    recvLoop (some p) seen (ch '=' :: s) =
      ⟨seen ++ ch '=' :: s, some p, some (seen.length + 1)⟩ := by
  have hnul : ch '=' ≠ NUL := by decide
  have hcut : cutByte (ch '=') = ch '=' := by decide
  rw [recvLoop, if_neg hnul, if_neg (fun h => Option.some_ne_none p h.2), hcut,
    if_pos ⟨rfl, Option.some_ne_none p⟩]

/-! ## What is found -/

section Found

variable {k v r : Bytes}

theorem recvStr_none (hk : ch '=' ∉ k) (hnul : NUL ∉ k) :
    recvStr k = ⟨cut k, none, none⟩ := by
  have happ := recvLoop_append k hk hnul none [] []
  rw [List.append_nil, List.nil_append] at happ
  rw [recvStr, happ, recvLoop]

theorem recvStr_first (hk : ch '=' ∉ k) (hnul : NUL ∉ k) (s : Bytes) :
    recvStr (k ++ ch '=' :: s) = recvLoop (some (k.length + 1)) (cut k ++ [ch '=']) s := by
  rw [recvStr, recvLoop_append k hk hnul, recvLoop_first, List.nil_append, length_cut]

theorem recvStr_one (hk : ch '=' ∉ k) (hv : ch '=' ∉ v) (hnulk : NUL ∉ k) (hnulv : NUL ∉ v) :
    recvStr (k ++ ch '=' :: v) = ⟨cut k ++ ch '=' :: cut v, some (k.length + 1), none⟩ := by
  have happ := recvLoop_append v hv hnulv (some (k.length + 1)) (cut k ++ [ch '=']) []
  rw [List.append_nil] at happ
  rw [recvStr_first hk hnulk, happ, recvLoop, List.append_assoc, List.singleton_append]

theorem recvStr_two (hk : ch '=' ∉ k) (hv : ch '=' ∉ v) (hnulk : NUL ∉ k) (hnulv : NUL ∉ v)
    (r : Bytes) :
    recvStr (k ++ ch '=' :: (v ++ ch '=' :: r)) =
      ⟨cut k ++ ch '=' :: (cut v ++ ch '=' :: r), some (k.length + 1),
        some (k.length + 1 + v.length + 1)⟩ := by
  have hlen : (cut k ++ [ch '='] ++ cut v).length = k.length + 1 + v.length := by
    rw [List.length_append, List.length_append, length_cut, length_cut, List.length_singleton]
  rw [recvStr_first hk hnulk, recvLoop_append v hv hnulv, recvLoop_second, hlen,
    List.append_assoc, List.append_assoc, List.singleton_append]

theorem drop_behind (k s : Bytes) (c : UInt8) : (cut k ++ c :: s).drop (k.length + 1) = s := by
  rw [← length_cut k, List.drop_append_cons]

/-- A cut string ends at its first `'&'`. -/
theorem cstr_cut (w : Bytes) (hnul : NUL ∉ w) : cstr (cut w) = w.takeWhile nameByte := by
  induction w with
  | nil => rfl
  | cons c w ih =>
    obtain ⟨hc, hnul⟩ := not_or.mp (List.mem_cons.not.mp hnul)
    by_cases hamp : c = ch '&'
    · subst hamp
      rfl
    · have hcut : cutByte c = c := if_neg hamp
      have hname : nameByte c = true := decide_eq_true ⟨hamp, Ne.symm hc⟩
      rw [List.takeWhile_cons_of_pos hname, ← ih hnul, cut_cons, hcut, cstr_cons (Ne.symm hc)]

/-! ## Against `get_string` -/

/-- Where there is no `'='`, `get_string` goes to the end. -/
theorem skipEq_eq_nil (hk : ch '=' ∉ k) (hnul : NUL ∉ k) : skipEq k = [] := by
  rw [skipEq_eq_tail hnul, List.dropWhile_ne_of_notMem hk]
  rfl

theorem skipEq_first (hk : ch '=' ∉ k) (hnul : NUL ∉ k) (s : Bytes) :
    skipEq (k ++ ch '=' :: s) = s := by
  refine skipEq_append (fun c hc => ⟨?_, ?_⟩) s
  · rintro rfl
    exact hk hc
  · rintro rfl
    exact hnul hc

theorem agree_of_none (hk : ch '=' ∉ k) (hnul : NUL ∉ k) :
    getString k = (recvStr k).strings := by
  rw [recvStr_none hk hnul, getString_eq, skipEq_eq_nil hk hnul]
  rfl

theorem agree_of_one (hk : ch '=' ∉ k) (hv : ch '=' ∉ v) (hnulk : NUL ∉ k) (hnulv : NUL ∉ v) :
    getString (k ++ ch '=' :: v) = (recvStr (k ++ ch '=' :: v)).strings := by
  have hrest : skipEq (v.dropWhile nameByte) = [] :=
    skipEq_eq_nil (fun h => hv ((List.dropWhile_suffix _).subset h))
      (fun h => hnulv ((List.dropWhile_suffix _).subset h))
  rw [recvStr_one hk hv hnulk hnulv, getString_eq, skipEq_first hk hnulk, hrest]
  show _ = (cstr (List.drop (k.length + 1) _), [])
  rw [drop_behind, cstr_cut v hnulv]
  rfl

theorem cut_eq_self (h : ch '&' ∉ v) : cut v = v := List.map_ite_of_notMem h NUL

/-- With a second `'='`, `id` is what follows it. -/
theorem strings_two (hk : ch '=' ∉ k) (hv : ch '=' ∉ v) (hnulk : NUL ∉ k) (hnulv : NUL ∉ v)
    (hnulr : NUL ∉ r) :
    (recvStr (k ++ ch '=' :: (v ++ ch '=' :: r))).strings = (cstr (cut v ++ ch '=' :: r), r) := by
  have hname := drop_behind k (cut v ++ ch '=' :: r) (ch '=')
  have hid :
      (cut k ++ ch '=' :: (cut v ++ ch '=' :: r)).drop (k.length + 1 + v.length + 1) = r := by
    rw [Nat.add_assoc _ v.length, ← List.drop_drop, hname, drop_behind]
  rw [recvStr_two hk hv hnulk hnulv, Scanned.strings, strAt, strAt, hname, hid,
    cstr_eq_self hnulr]

/-- A `'&'` between the first two `'='` ends the name for both. -/
theorem agree_of_amp (hk : ch '=' ∉ k) (hv : ch '=' ∉ v) (hnulk : NUL ∉ k) (hnulv : NUL ∉ v)
    (hnulr : NUL ∉ r) (hamp : ch '&' ∈ v) :
    getString (k ++ ch '=' :: (v ++ ch '=' :: r)) =
      (recvStr (k ++ ch '=' :: (v ++ ch '=' :: r))).strings := by
  obtain ⟨a, b, rfl, ha⟩ := List.eq_append_cons_of_mem hamp
  have hnula : NUL ∉ a := fun h => hnulv (List.mem_append_left _ h)
  have hname : cstr (cut (a ++ ch '&' :: b) ++ ch '=' :: r) = a := by
    have hcut : cut (a ++ ch '&' :: b) = a ++ NUL :: cut b := by
      rw [cut, List.map_append, ← cut, cut_eq_self ha]
      rfl
    rw [hcut, List.append_assoc, List.cons_append, cstr_append_NUL hnula]
  obtain ⟨htake, hdrop⟩ := takeWhile_nameByte (v := a) (fun c hc =>
    ⟨fun hca => ha (hca ▸ hc), fun hcn => hnula (hcn ▸ hc)⟩) (b ++ ch '=' :: r)
  have hsecond : skipEq (ch '&' :: b ++ ch '=' :: r) = r :=
    skipEq_first (fun h => hv (List.mem_append_right _ h))
      (fun h => hnulv (List.mem_append_right _ h)) r
  rw [strings_two hk hv hnulk hnulv hnulr, getString_eq, skipEq_first hk hnulk, hname,
    List.append_assoc, List.cons_append, htake, hdrop, ← List.cons_append, hsecond,
    cstr_eq_self hnulr]

/-- Without one, `get_string` goes on with the name and `recv_str` does not. -/
theorem agree_iff_of_notAmp (hk : ch '=' ∉ k) (hv : ch '=' ∉ v) (hnulk : NUL ∉ k)
    (hnulv : NUL ∉ v) (hnulr : NUL ∉ r) (hamp : ch '&' ∉ v) :
    getString (k ++ ch '=' :: (v ++ ch '=' :: r)) =
      (recvStr (k ++ ch '=' :: (v ++ ch '=' :: r))).strings ↔ r = [] := by
  have hall : ∀ c ∈ v ++ [ch '='], nameByte c = true := by
    intro c hc
    rcases List.mem_append.mp hc with hc | hc
    · exact decide_eq_true ⟨fun hca => hamp (hca ▸ hc), fun hcn => hnulv (hcn ▸ hc)⟩
    · rw [List.mem_singleton.mp hc]
      decide
  have hname : cstr (v ++ [ch '='] ++ r) = v ++ [ch '='] ++ r := by
    refine cstr_eq_self fun h => ?_
    rcases List.mem_append.mp h with h | h
    · rcases List.mem_append.mp h with h | h
      · exact hnulv h
      · exact absurd (List.mem_singleton.mp h) (by decide)
    · exact hnulr h
  rw [strings_two hk hv hnulk hnulv hnulr, getString_eq, skipEq_first hk hnulk, cut_eq_self hamp,
    List.append_cons, hname, List.takeWhile_append_of_pos hall, List.dropWhile_append_of_pos hall,
    Prod.mk.injEq, List.append_cancel_left_eq]
  constructor
  · intro ⟨htake, hdrop⟩
    rw [List.takeWhile_eq_self_iff, ← List.dropWhile_eq_nil_iff] at htake
    rw [htake] at hdrop
    exact hdrop.symm
  · rintro rfl
    exact ⟨rfl, rfl⟩

end Found

/-- Behind the first `'='` of `q` a second one occurs before any `'&'`; except where
no `'&'` follows the first one at all and the second is the last byte of `q`. -/
def Doubled (q : Bytes) : Prop :=
  ∃ k v r, q = k ++ ch '=' :: (v ++ ch '=' :: r) ∧ ch '=' ∉ k ∧ ch '=' ∉ v ∧ ch '&' ∉ v ∧
    ¬ (ch '&' ∉ v ++ ch '=' :: r ∧ r = [])

theorem doubled_iff {k v r : Bytes} (hk : ch '=' ∉ k) (hv : ch '=' ∉ v) :
    Doubled (k ++ ch '=' :: (v ++ ch '=' :: r)) ↔ ch '&' ∉ v ∧ r ≠ [] := by
  constructor
  · rintro ⟨k', v', r', heq, hk', hv', hamp, hlast⟩
    obtain ⟨rfl, hrest⟩ := List.append_cons_unique heq hk hk'
    obtain ⟨rfl, rfl⟩ := List.append_cons_unique hrest hv hv'
    refine ⟨hamp, fun hr => hlast ⟨?_, hr⟩⟩
    rw [hr, List.mem_append, not_or]
    exact ⟨hamp, by decide⟩
  · intro ⟨hamp, hr⟩
    exact ⟨k, v, r, rfl, hk, hv, hamp, fun hlast => hr hlast.2⟩

theorem not_doubled_of_one {k s : Bytes} (hk : ch '=' ∉ k) (hs : ch '=' ∉ s) :
    ¬ Doubled (k ++ ch '=' :: s) := by
  rintro ⟨k', v', r', heq, hk', -⟩
  obtain ⟨rfl, rfl⟩ := List.append_cons_unique heq hk hk'
  exact hs (by simp)

/-- **The two parsers agree on a query unless a second `'='` is in its name.** -/
theorem getString_eq_recvStr_iff {q : Bytes} (hne : q ≠ []) (hnul : NUL ∉ q) :
    getString q = (recvStr q).strings ↔ ¬ Doubled q := by
  by_cases hq : ch '=' ∈ q
  · obtain ⟨k, s, rfl, hk⟩ := List.eq_append_cons_of_mem hq
    have hnulk : NUL ∉ k := fun h => hnul (List.mem_append_left _ h)
    have hnuls : NUL ∉ s := fun h => hnul (List.mem_append_right _ (List.mem_cons_of_mem _ h))
    by_cases hs : ch '=' ∈ s
    · obtain ⟨v, r, rfl, hv⟩ := List.eq_append_cons_of_mem hs
      have hnulv : NUL ∉ v := fun h => hnuls (List.mem_append_left _ h)
      have hnulr : NUL ∉ r := fun h => hnuls (List.mem_append_right _ (List.mem_cons_of_mem _ h))
      rw [doubled_iff hk hv]
      by_cases hamp : ch '&' ∈ v
      · have hagree := agree_of_amp hk hv hnulk hnulv hnulr hamp
        exact iff_of_true hagree fun h => h.1 hamp
      · rw [agree_iff_of_notAmp hk hv hnulk hnulv hnulr hamp]
        constructor
        · intro hr h
          exact h.2 hr
        · intro h
          by_contra hr
          exact h ⟨hamp, hr⟩
    · exact iff_of_true (agree_of_one hk hs hnulk hnuls) (not_doubled_of_one hk hs)
  · refine iff_of_true (agree_of_none hq hnul) ?_
    rintro ⟨k, v, r, rfl, -⟩
    exact hq (by simp)

/-- A `'='` in the name makes them differ, unless it ends the query. -/
theorem getString_eq_recvStr_iff_example :
    (getString (bytes "n=a=b&i=1") = (recvStr (bytes "n=a=b&i=1")).strings ↔
      ¬ Doubled (bytes "n=a=b&i=1")) ∧
    (getString (bytes "n=ann=") = (recvStr (bytes "n=ann=")).strings ↔
      ¬ Doubled (bytes "n=ann=")) :=
  ⟨getString_eq_recvStr_iff (by decide) (by decide),
    getString_eq_recvStr_iff (by decide) (by decide)⟩

end FacePerception.Cgi
