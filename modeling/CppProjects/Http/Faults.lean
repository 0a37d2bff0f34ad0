import CppProjects.Http.Posts

/-!
# When the server goes wrong

For every text that a client can send: the arrays are written inside their bounds and the
strings end in them, but for a query string that is too long and a file that cannot be
opened.
-/

namespace CppProjects

namespace Httpd

open CInt

variable {s : Reader} {host : Host} {stale : Stale} {request : Request} {input : Text} {n : ℤ}

/-! ## The loop over the headers -/

/-- Somewhere behind the place of the length a string ends. -/
def Ends (buf : Text) : Prop := nul ∈ buf.drop 16

instance (buf : Text) : Decidable (Ends buf) := inferInstanceAs (Decidable (_ ∈ _))

theorem Ends.set {buf : Text} (h : Ends buf) : Ends (buf.set 15 nul) := by
  rw [Ends, List.drop_set_of_lt (by decide)]
  exact h

/-- A longer line ends there itself, and a shorter one leaves what is there. -/
theorem Ends.getLine (h : Ends s.buf) : Ends (getLine s).buf := by
  rw [Ends, buf_getLine]
  rcases le_or_gt 16 (readLine (bufferSize - 1) s.input).1.length with hlong | hshort
  · rw [List.drop_append_of_le_length hlong]
    simp
  · obtain ⟨extra, hextra⟩ := Nat.exists_eq_add_of_lt hshort
    rw [List.drop_append, List.drop_of_length_le hshort.le, List.nil_append]
    have hskip : 16 - (readLine (bufferSize - 1) s.input).1.length = extra + 1 := by omega
    rw [hskip, List.drop_succ_cons, List.drop_drop]
    have hsum : (readLine (bufferSize - 1) s.input).1.length + 1 + extra = 16 := by omega
    rw [hsum]
    exact h

theorem Ends.startReading {stale : Text} (h : Ends stale) (input : Text) :
    Ends (startReading stale input).buf := by
  simpa [Httpd.startReading, overwrite, Ends] using h

theorem fitsInt_atoi (text : Text) : FitsInt (atoi text) := by
  rw [atoi]
  split
  all_goals exact (toInt_spec _).1

/-- A turn reads a string that ends, and the length it takes from it is an `int`. -/
theorem headerTurn_ends {buf : Text} (h : Ends buf) (hn : FitsInt n) :
    ∃ value, FitsInt value ∧ headerTurn buf n = some value := by
  have hset : nul ∈ (buf.set 15 nul).drop 16 := h.set
  rw [headerTurn, if_pos hset]
  split_ifs
  · exact ⟨_, fitsInt_atoi _, rfl⟩
  · exact ⟨n, hn, rfl⟩

/-- Whatever the headers are, the loop gets to their end with an `int`. -/
theorem readHeaders_ends (h : Ends s.buf) (hn : FitsInt n) :
    ∃ value s', FitsInt value ∧ readHeaders s n = some (value, s') := by
  induction hturns : turnsLeft s using Nat.strong_induction_on generalizing s n with
  | _ k ih =>
      by_cases hgoes : GoesOn s
      · obtain ⟨value, hvalue, hturn⟩ := headerTurn_ends h hn
        have hnext : turnsLeft (getLine { s with buf := s.buf.set 15 nul }) < turnsLeft s :=
          turnsLeft_getLine hgoes.1
        have hends : Ends (Httpd.getLine { s with buf := s.buf.set 15 nul }).buf :=
          Ends.getLine (s := { s with buf := s.buf.set 15 nul }) h.set
        obtain ⟨last, s', hlast, hread⟩ := ih _ (hturns ▸ hnext) hends hvalue rfl
        exact ⟨last, s', hlast, by rw [readHeaders_next hgoes, hturn, Option.bind_some, hread]⟩
      · exact ⟨n, s, hn, readHeaders_stop hgoes⟩

/-! ## The request -/

theorem length_cString_le (block : Text) : (cString block).length ≤ block.length :=
  (List.takeWhile_prefix _).length_le

theorem length_word_le (text : Text) : (word text).length ≤ 254 :=
  (List.takeWhile_prefix _).length_le.trans (List.length_take_le _ _)

/-- A URL fits into its array. -/
theorem length_url_le (s : Reader) : (parseRequest s).url.length ≤ 254 :=
  (length_cString_le _).trans (length_word_le _)

theorem length_target_le (request : Request) : request.target.length ≤ request.url.length := by
  rw [Request.target]
  split_ifs
  · exact length_beforeQuery_le _
  · exact le_rfl

theorem length_method_le (s : Reader)
    (hknown : (parseRequest s).isGet ∨ (parseRequest s).isPost) :
    (parseRequest s).method.length ≤ 254 - 15 := by
  rcases hknown with hname | hname
  · have hlength : (parseRequest s).method.length = 3 := length_of_sameName hname
    omega
  · have hlength : (parseRequest s).method.length = 4 := length_of_sameName hname
    omega

/-- A program for a `GET` is given its query string, unless the array is too small for it. -/
theorem executeGet_eq_none_iff {path method queryString : Text} (hmethod : method.length ≤ 254 - 15) :
    executeGet host stale path method queryString input = none ↔
      host.forks ∧ 241 < queryString.length := by
  rw [executeGet, launch_eq host _ _ hmethod]
  simp only [queryString_fits_iff]
  split_ifs with hforks hfits
  · simp [hforks, hfits]
  · simpa [hforks] using hfits
  · simp [hforks]

theorem executePost_ne_none {path method : Text} (h : Ends stale.cgiBuf)
    (hmethod : method.length ≤ 254 - 15) : executePost host stale path method input ≠ none := by
  obtain ⟨value, s', hvalue, hread⟩ :=
    readHeaders_ends (h.startReading input).getLine (by decide : FitsInt (-1))
  rw [executePost, hread]
  simp only [Option.bind_eq_bind, Option.bind_some]
  split_ifs
  · exact Option.some_ne_none _
  · rw [launch_eq host _ _ hmethod, if_pos (contentLength_fits hvalue)]
    exact Option.some_ne_none _
  · exact Option.some_ne_none _

/-- Whatever a client sends, the server goes wrong just for a `GET` of something that is
there: where a program is to run and its query string is longer than 241 characters, and
where a file is to be sent and cannot be opened. -/
theorem acceptRequest_eq_none_iff (h : Ends stale.cgiBuf) :
    let request := parseRequest (getLine ⟨stale.acceptBuf, 0, input⟩)
    acceptRequest host stale input = none ↔
      request.isGet ∧ ∃ mode, host.stat (pathOf request.target) = some mode ∧
        if request.isCgi mode then host.forks ∧ 241 < request.queryString.length
        else host.fopen (resolve mode (pathOf request.target)) = none := by
  intro request
  have hurl : request.url.length ≤ 254 := length_url_le _
  obtain ⟨hpath, hshort⟩ := requestPath_eq ((length_target_le request).trans hurl)
  have hmethod : request.isGet ∨ request.isPost → request.method.length ≤ 254 - 15 :=
    length_method_le _
  rw [acceptRequest, show parseRequest (getLine ⟨stale.acceptBuf, 0, input⟩) = request from rfl,
    dispatch]
  by_cases hknown : request.isGet ∨ request.isPost
  · have hmethod := hmethod hknown
    have hother : (!request.isGet && !request.isPost) = false := by
      rcases hknown with hknown | hknown <;> simp [hknown]
    rw [hother, if_neg Bool.false_ne_true, hpath]
    cases hstat : host.stat (pathOf request.target) with
    | none => simp [hstat]
    | some mode =>
        simp only [Option.bind_eq_bind, Option.bind_some, hstat, directoryPath_eq hshort]
        by_cases hcgi : request.isCgi mode
        · cases hget : request.isGet with
          | true => simp [hcgi, executeGet_eq_none_iff hmethod]
          | false => simp [hcgi, executePost_ne_none h hmethod]
        · have hget : request.isGet := by
            refine hknown.resolve_right fun hpost => hcgi ?_
            simp [Request.isCgi, hpost]
          cases hopen : host.fopen (resolve mode (pathOf request.target)) <;>
            simp [hcgi, hget, serveFile, hopen]
  · simp only [not_or, Bool.not_eq_true] at hknown
    simp [hknown.1, hknown.2]

theorem acceptRequest_eq_none_iff_pages :
    let request := parseRequest (getLine ⟨zeros.acceptBuf, 0, "GET /".toList⟩)
    acceptRequest pages zeros "GET /".toList = none ↔
      request.isGet ∧ ∃ mode, pages.stat (pathOf request.target) = some mode ∧
        if request.isCgi mode then pages.forks ∧ 241 < request.queryString.length
        else pages.fopen (resolve mode (pathOf request.target)) = none :=
  acceptRequest_eq_none_iff (by decide +kernel)

end Httpd

end CppProjects
