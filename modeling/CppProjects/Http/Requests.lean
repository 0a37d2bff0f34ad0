import CppProjects.Core.CString
import CppProjects.Http.Files

/-!
# Requests

What a request that a client sends comes to: the file that is served for it, or the
program that is run with its query string or its body.
-/

namespace CppProjects

namespace Httpd

/-- A word of the request line, for an array of 255 characters. -/
structure IsWord (text : Text) : Prop where
  plain : ∀ c ∈ text, isSpace c = false ∧ c ≠ nul
  fits : text.length ≤ 254

/-- A request line as a client sends it. -/
def requestLine (method url version : Text) : Text := method ++ ' ' :: (url ++ ' ' :: version)

/-- A request with its headers, and what comes behind it. -/
def sentRequest (method url version : Text) (headers : List Text) (body : Text) : Text :=
  sentLine (requestLine method url version) ++ (sentHeaders headers ++ body)

variable {host : Host} {stale : Stale} {method url version text rest body : Text}
  {headerLines : List Text} {c : Char}

theorem isWord_of_all (hplain : text.all fun c => !isSpace c && c != nul)
    (hfits : text.length ≤ 254) : IsWord text where
  plain c hc := by simpa using List.all_eq_true.mp hplain c hc
  fits := hfits

theorem IsWord.oneLine (hword : IsWord text) : OneLine text := by
  intro c hc
  have hspace := (hword.plain c hc).1
  refine ⟨?_, ?_⟩ <;>
  · rintro rfl
    exact absurd hspace (by decide)

theorem IsWord.cString_eq (hword : IsWord text) : cString text = text :=
  cString_eq_self fun hmem => (hword.plain nul hmem).2 rfl

/-- A word is copied up to the white space behind it. -/
theorem word_append (hword : IsWord text) (hspace : isSpace c) (rest : Text) :
    word (text ++ c :: rest) = text := by
  obtain ⟨extra, hextra⟩ := Nat.exists_eq_add_of_le hword.fits
  have hplain : ∀ d ∈ text, (!isSpace d) = true := fun d hd => by simp [(hword.plain d hd).1]
  rw [word, hextra, List.take_length_add_append]
  cases extra with
  | zero =>
      rw [List.take_zero, List.append_nil]
      exact List.takeWhile_eq_self_iff.mpr hplain
  | succ extra =>
      rw [List.take_succ_cons]
      exact CString.takeWhile_seam hplain (by simp [hspace])

theorem oneLine_requestLine (hmethod : IsWord method) (hurl : IsWord url)
    (hversion : OneLine version) : OneLine (requestLine method url version) := by
  intro c hc
  simp only [requestLine, List.mem_append, List.mem_cons] at hc
  rcases hc with hc | rfl | hc | rfl | hc
  · exact hmethod.oneLine c hc
  · decide
  · exact hurl.oneLine c hc
  · decide
  · exact hversion c hc

/-- The method and the URL that a client sends are what the server takes out of the
request line, and the headers are next. -/
theorem parseRequest_sent (hmethod : IsWord method) (hurl : IsWord url) (hne : url ≠ [])
    (hversion : OneLine version)
    (hfits : (requestLine method url version).length < bufferSize - 1) (buf rest : Text) :
    parseRequest (getLine ⟨buf, 0, sentLine (requestLine method url version) ++ rest⟩) =
      ⟨method, url, sameName method "GET".toList, sameName method "POST".toList⟩ ∧
    (getLine ⟨buf, 0, sentLine (requestLine method url version) ++ rest⟩).input = rest := by
  have hline := oneLine_requestLine hmethod hurl hversion
  have hread := readLine_sentLine hline hfits rest
  refine ⟨?_, by simp only [getLine, hread]⟩
  obtain ⟨d, url', rfl⟩ := List.exists_cons_of_ne_nil hne
  have hd : isSpace d = false := (hurl.plain d List.mem_cons_self).1
  -- the buffer, and the part of it that `numchars` counts
  obtain ⟨tail, hbuf⟩ : ∃ tail, (getLine ⟨buf, 0, sentLine (requestLine method (d :: url') version) ++
      rest⟩).buf = method ++ ' ' :: tail := by
    rw [buf_getLine]
    simp only [hread]
    simp only [requestLine, List.append_assoc, List.cons_append]
    exact ⟨_, rfl⟩
  have hcounted : (getLine ⟨buf, 0, sentLine (requestLine method (d :: url') version) ++ rest⟩).buf.take
      (getLine ⟨buf, 0, sentLine (requestLine method (d :: url') version) ++ rest⟩).numchars =
      method ++ ' ' :: (d :: url' ++ ' ' :: (version ++ ['\n'])) := by
    rw [buf_getLine]
    simp only [getLine, hread]
    rw [List.take_left]
    simp only [requestLine, List.append_assoc, List.cons_append]
  have hword : word (getLine ⟨buf, 0, sentLine (requestLine method (d :: url') version) ++ rest⟩).buf =
      method := by
    rw [hbuf]
    exact word_append hmethod (by decide) tail
  have hrest : (' ' :: (d :: url' ++ ' ' :: (version ++ ['\n']))).dropWhile isSpace =
      d :: url' ++ ' ' :: (version ++ ['\n']) := by
    rw [List.dropWhile_cons_of_pos (by decide), List.cons_append,
      List.dropWhile_cons_of_neg (by simp [hd])]
  rw [parseRequest, hword, hcounted, List.drop_left, hrest, word_append hurl (by decide),
    hmethod.cString_eq, hurl.cString_eq]

/-! ## Paths -/

/-- Where the server looks for a URL. -/
def pathOf (target : Text) : Text :=
  let path := "htdocs".toList ++ target
  if path.getLast? = some '/' then path ++ indexHtml else path

/-- The path of a URL that was copied into its array fits into the array for it. -/
theorem requestPath_eq {target : Text} (hlength : target.length ≤ 254) :
    requestPath target = some (pathOf target) ∧ (pathOf target).length ≤ 270 := by
  have hpath : ("htdocs".toList ++ target).length = 6 + target.length := List.length_append
  have hindex : (("htdocs".toList ++ target) ++ indexHtml).length = 6 + target.length + 10 := by
    rw [List.length_append, hpath]
    rfl
  have hfirst : fits 512 ("htdocs".toList ++ target) = some ("htdocs".toList ++ target) :=
    if_pos (by omega)
  have hsecond : fits 512 (("htdocs".toList ++ target) ++ indexHtml) =
      some (("htdocs".toList ++ target) ++ indexHtml) := if_pos (by omega)
  rw [requestPath, hfirst, pathOf]
  simp only [Option.bind_eq_bind, Option.bind_some]
  split_ifs with hslash
  · exact ⟨hsecond, by omega⟩
  · exact ⟨rfl, by omega⟩

/-- The file behind a path, or `index.html` in the directory there. -/
def resolve (mode : FileMode) (path : Text) : Text :=
  if mode.directory then path ++ '/' :: indexHtml else path

theorem directoryPath_eq {path : Text} (hlength : path.length ≤ 270) (mode : FileMode) :
    directoryPath mode path = some (resolve mode path) := by
  have hindex : ('/' :: indexHtml).length = 11 := rfl
  rw [directoryPath, fits, resolve]
  split_ifs with hdirectory hfits
  · rfl
  · rw [List.length_append] at hfits
    omega
  · rfl

theorem length_beforeQuery_le (url : Text) : (beforeQuery url).length ≤ url.length :=
  (List.takeWhile_prefix _).length_le

/-- A request line that names a method of the server is dispatched. -/
theorem acceptRequest_sent (host : Host) (stale : Stale) (hmethod : IsWord method) (hurl : IsWord url) (hne : url ≠ [])
    (hversion : OneLine version)
    (hfits : (requestLine method url version).length < bufferSize - 1) (rest : Text) :
    ∃ s, s.input = rest ∧
      acceptRequest host stale (sentLine (requestLine method url version) ++ rest) =
        dispatch host stale ⟨method, url, sameName method "GET".toList,
          sameName method "POST".toList⟩ s := by
  obtain ⟨hparse, hinput⟩ :=
    parseRequest_sent hmethod hurl hne hversion hfits stale.acceptBuf rest
  exact ⟨_, hinput, by rw [acceptRequest, hparse]⟩

theorem goesOn_startReading (buf input : Text) : GoesOn (startReading buf input) := by
  refine ⟨Nat.one_pos, ?_⟩
  simp [startReading, overwrite, cString, nul]

theorem length_of_sameName {left right : Text} (hsame : sameName left right) :
    left.length = right.length := by
  simpa using congrArg List.length (of_decide_eq_true hsame)

/-- A name is not that of another method. -/
theorem sameName_eq_false {left right other : Text} (hsame : sameName left right)
    (hlength : right.length ≠ other.length) : sameName left other = false := by
  by_contra hother
  exact hlength ((length_of_sameName hsame).symm.trans
    (length_of_sameName (Bool.not_eq_false _ ▸ hother)))

/-- The headers of a request, none of which fills the buffer a whole number of times. -/
def HeadersFit (headerLines : List Text) : Prop :=
  ∀ header ∈ headerLines, OneLine header ∧ ¬ bufferSize - 1 ∣ header.length

instance (headerLines : List Text) : Decidable (HeadersFit headerLines) :=
  List.decidableBAll _ headerLines

theorem discardHeaders_sent (hheaders : HeadersFit headerLines) (buf body : Text) :
    (discardHeaders (startReading buf (sentHeaders headerLines ++ body))).input = body :=
  discardHeaders_end hheaders (goesOn_startReading buf _) rfl

/-! ## Files -/

theorem beforeQuery_eq_self (hquery : '?' ∉ url) : beforeQuery url = url :=
  List.takeWhile_eq_self_iff.mpr fun _ hc => bne_iff_ne.mpr fun heq => hquery (heq ▸ hc)

/-- A `GET` of a text file that is not executable is answered with the headers and the
file, up to what `cat` leaves out behind its last line. -/
theorem get_serves_file (hmethod : IsWord method) (hget : sameName method "GET".toList)
    (hurl : IsWord url) (hne : url ≠ []) (hquery : '?' ∉ url) (hversion : OneLine version)
    (hfits : (requestLine method url version).length < bufferSize - 1)
    (hheaders : HeadersFit headerLines) {lines : List Text} {tail : Text}
    (hstat : host.stat (pathOf url) = some ⟨false, false⟩)
    (hopen : host.fopen (pathOf url) = some (lines.flatMap (· ++ ['\n']) ++ tail))
    (hlines : ∀ line ∈ lines, '\n' ∉ line ∧ nul ∉ line) (htail : '\n' ∉ tail) (hnul : nul ∉ tail) :
    acceptRequest host stale (sentRequest method url version headerLines body) =
      some ⟨headers ++ (lines.flatMap (· ++ ['\n']) ++
        tail.take (tail.length / (bufferSize - 1) * (bufferSize - 1))), none, body, true⟩ := by
  obtain ⟨s, hinput, haccept⟩ := acceptRequest_sent host stale hmethod hurl hne
    hversion hfits (sentHeaders headerLines ++ body)
  have hpost : sameName method "POST".toList = false := sameName_eq_false hget (by decide)
  have hdirectory : directoryPath ⟨false, false⟩ (pathOf url) = some (pathOf url) := rfl
  rw [sentRequest, haccept, dispatch, hget, hpost]
  simp only [Bool.not_true, Bool.false_and, Bool.false_eq_true, if_false, Request.target, if_true,
    beforeQuery_eq_self hquery, (requestPath_eq hurl.fits).1, Option.bind_eq_bind, Option.bind_some,
    hstat, hdirectory, Request.isCgi, hquery, decide_false, Bool.and_false, Bool.or_false,
    Bool.not_false, serveFile, hopen, hinput, discardHeaders_sent hheaders, cat_text hlines htail hnul]

/-- A host where every path is a page, and every program a copy of its input. -/
def pages : Host where
  stat _ := some ⟨false, false⟩
  fopen _ := some ['H', 'i', '\n', '.']
  pipes := (true, true)
  fork := true
  run program := program.stdin

/-- Arrays that hold zeros. -/
def zeros : Stale where
  acceptBuf := List.replicate bufferSize nul
  cgiBuf := List.replicate bufferSize nul
  badBuf := List.replicate bufferSize nul
  c := nul

theorem get_serves_file_page :
    acceptRequest pages zeros
        (sentRequest "get".toList "/a".toList "HTTP/1.0".toList ["Host: x".toList] ['b']) =
      some ⟨headers ++ ([['H', 'i']].flatMap (· ++ ['\n']) ++
        ['.'].take (['.'].length / (bufferSize - 1) * (bufferSize - 1))), none, ['b'], true⟩ :=
  get_serves_file (isWord_of_all (by decide +kernel) (by decide +kernel)) (by decide +kernel)
    (isWord_of_all (by decide +kernel) (by decide +kernel)) (by decide +kernel) (by decide +kernel)
    (by decide +kernel) (by decide +kernel) (by decide +kernel) rfl rfl (by decide +kernel)
    (by decide +kernel) (by decide +kernel)

/-! ## Programs with a query string -/

theorem launch_eq (host : Host) (setting : Text) {program : Cgi} (rest : Text)
    (hmethod : program.requestMethod.length ≤ 254 - 15) :
    launch host setting program rest =
      if setting.length < 255 then
        some ⟨statusOk ++ statusOk ++ host.run program, some program, rest, true⟩
      else none := by
  have hfits : fits 255 ("REQUEST_METHOD=".toList ++ program.requestMethod) =
      some ("REQUEST_METHOD=".toList ++ program.requestMethod) := by
    refine if_pos ?_
    rw [List.length_append]
    exact Nat.lt_of_le_of_lt (Nat.add_le_add_left hmethod _) (by decide)
  rw [launch, hfits, fits]
  split_ifs <;> rfl

/-- `query_env` holds 241 characters behind the name. -/
theorem queryString_fits_iff (query : Text) :
    ("QUERY_STRING=".toList ++ query).length < 255 ↔ query.length ≤ 241 := by
  rw [List.length_append, show "QUERY_STRING=".toList.length = 13 from rfl]
  omega

end Httpd

end CppProjects
