import CppProjects.Core.Overwrite
import CppProjects.Http.GetLine

/-!
# Reading the headers

The loops of the web server that read up to the blank line behind the headers.  They
look at the line in their buffer only, so that a header that fills the buffer a whole
number of times is followed by a line that looks blank.
-/

namespace CppProjects

namespace Httpd

/-- `sizeof(buf)`. -/
def bufferSize : ℕ := 1024

def nul : Char := '\x00'

/-- The string in a block of memory. -/
def cString (block : Text) : Text := block.takeWhile (· != nul)

/-- The local variables of a reading function, and the socket.  Behind what was stored
last the buffer holds what it held before. -/
structure Reader where
  buf : Text
  numchars : ℕ
  input : Text
deriving DecidableEq, Repr

/-- `numchars = get_line(client, buf, sizeof(buf))`. -/
def getLine (s : Reader) : Reader :=
  let line := readLine (bufferSize - 1) s.input
  { buf := overwrite s.buf 0 (line.1 ++ [nul])
    numchars := line.1.length
    input := line.2 }

/-- `(numchars > 0) && strcmp("\n", buf)`. -/
def GoesOn (s : Reader) : Prop := s.numchars > 0 ∧ cString s.buf ≠ ['\n']

instance (s : Reader) : Decidable (GoesOn s) := inferInstanceAs (Decidable (_ ∧ _))

/-- The loop that reads and discards headers, for so many turns at most. -/
def discardLoop : ℕ → Reader → Reader
  | 0, s => s
  | turns + 1, s => if GoesOn s then discardLoop turns (getLine s) else s

/-- Each turn but the last one takes a character. -/
def discardHeaders (s : Reader) : Reader := discardLoop (s.input.length + 2) s

def contentLengthName : Text := "Content-Length:".toList

/-- `strcasecmp` finds no difference. -/
def sameName (left right : Text) : Bool := left.map Char.toLower = right.map Char.toLower

/-- What a turn of the loop for `POST` does with the line in the buffer.  The string
behind the name has to end in the buffer. -/
def headerTurn (buf : Text) (contentLength : ℤ) : Option ℤ :=
  let buf := buf.set 15 nul
  if sameName (cString buf) contentLengthName then
    if nul ∈ buf.drop 16 then some (atoi (cString (buf.drop 16))) else none
  else some contentLength

def headerLoop : ℕ → Reader → ℤ → Option (ℤ × Reader)
  | 0, s, contentLength => some (contentLength, s)
  | turns + 1, s, contentLength =>
      if GoesOn s then
        (headerTurn s.buf contentLength).bind fun contentLength =>
          headerLoop turns (getLine { s with buf := s.buf.set 15 nul }) contentLength
      else some (contentLength, s)

/-- The headers of a `POST`, and the length they give. -/
def readHeaders (s : Reader) (contentLength : ℤ) : Option (ℤ × Reader) :=
  headerLoop (s.input.length + 2) s contentLength

variable {s : Reader} {line header body rest : Text} {headers : List Text} {turns : ℕ} {n : ℤ}

theorem cString_append_nul (line rest : Text) : cString (line ++ nul :: rest) = cString line := by
  induction line with
  | nil => simp [cString]
  | cons c line ih =>
      rw [cString, cString, List.cons_append, List.takeWhile_cons, List.takeWhile_cons]
      split_ifs
      · exact congrArg (c :: ·) ih
      · rfl

theorem buf_getLine (s : Reader) : (getLine s).buf =
    (readLine (bufferSize - 1) s.input).1 ++
      nul :: s.buf.drop ((readLine (bufferSize - 1) s.input).1.length + 1) := by
  simp [getLine, overwrite]

/-- Only an empty line is a line feed and no more. -/
theorem cString_eq_lineFeed (hline : '\n' ∉ line.dropLast) : cString line = ['\n'] ↔ line = ['\n'] := by
  constructor
  · intro h
    cases line with
    | nil => simp [cString] at h
    | cons c line =>
        cases line with
        | nil =>
            rw [cString, List.takeWhile_cons] at h
            split_ifs at h
            exact h
        | cons d line =>
            rw [List.dropLast_cons_of_ne_nil (List.cons_ne_nil d line)] at hline
            rw [cString, List.takeWhile_cons] at h
            split_ifs at h
            rw [(List.cons.inj h).1] at hline
            exact absurd List.mem_cons_self hline
  · rintro rfl
    decide

/-- The loops go on with a line that is there and is not blank. -/
theorem goesOn_getLine : GoesOn (getLine s) ↔
    (readLine (bufferSize - 1) s.input).1 ≠ [] ∧
      (readLine (bufferSize - 1) s.input).1 ≠ ['\n'] := by
  have hline := notMem_of_readLine (bufferSize - 1) s.input
  rw [GoesOn, buf_getLine, cString_append_nul, Ne, cString_eq_lineFeed hline]
  exact and_congr_left' List.length_pos_iff

/-- The turns a loop has to come. -/
def turnsLeft (s : Reader) : ℕ := s.input.length + if s.numchars > 0 then 1 else 0

theorem turnsLeft_getLine (h : s.numchars > 0) : turnsLeft (getLine s) < turnsLeft s := by
  rw [turnsLeft, turnsLeft, if_pos h]
  by_cases hinput : s.input = []
  · simp [getLine, hinput]
  · have hroom : 0 < bufferSize - 1 := by decide
    have htakes : (getLine s).input.length < s.input.length := (readLine_takes hroom hinput).1
    have hone : (if (getLine s).numchars > 0 then 1 else 0) ≤ 1 := by split_ifs <;> omega
    omega

theorem discardLoop_enough {turns' : ℕ} (h : turnsLeft s < turns) (h' : turnsLeft s < turns') :
    discardLoop turns s = discardLoop turns' s := by
  induction turns generalizing s turns' with
  | zero => omega
  | succ turns ih =>
      obtain ⟨turns', rfl⟩ : ∃ k, turns' = k + 1 := ⟨turns' - 1, by omega⟩
      rw [discardLoop, discardLoop]
      split_ifs with hgoes
      · have := turnsLeft_getLine hgoes.1
        exact ih (by omega) (by omega)
      · rfl

theorem turnsLeft_lt (s : Reader) : turnsLeft s < s.input.length + 2 := by
  rw [turnsLeft]
  split_ifs <;> omega

theorem discardHeaders_next (h : GoesOn s) : discardHeaders s = discardHeaders (getLine s) := by
  have hturns := turnsLeft_getLine h.1
  have := turnsLeft_lt s
  rw [discardHeaders, discardLoop, if_pos h]
  exact discardLoop_enough (by omega) (turnsLeft_lt _)

theorem discardHeaders_stop (h : ¬ GoesOn s) : discardHeaders s = s := by
  rw [discardHeaders, discardLoop, if_neg h]

/-- The loop ends: it has read to a blank line or to the end. -/
theorem not_goesOn_discardHeaders (s : Reader) : ¬ GoesOn (discardHeaders s) := by
  induction hturns : turnsLeft s using Nat.strong_induction_on generalizing s with
  | _ k ih =>
      by_cases h : GoesOn s
      · rw [discardHeaders_next h]
        exact ih _ (hturns ▸ turnsLeft_getLine h.1) _ rfl
      · rwa [discardHeaders_stop h]

/-! ## Where the headers end -/

/-- A line as the loop sees it: whole where it fits into the buffer, else in pieces that
fill it.  Where nothing is left for the last piece, the end of the line looks blank. -/
theorem discardHeaders_sentLine (hline : OneLine header) (h : GoesOn s)
    (hinput : s.input = sentLine header ++ rest) :
    ∃ s', s'.input = rest ∧ discardHeaders s = discardHeaders s' ∧
      (GoesOn s' ↔ ¬ bufferSize - 1 ∣ header.length) := by
  induction hlength : header.length using Nat.strong_induction_on generalizing header s with
  | _ k ih =>
      subst hlength
      rw [discardHeaders_next h]
      rcases lt_or_ge header.length (bufferSize - 1) with hfits | hfull
      · have hread := readLine_sentLine hline hfits rest
        refine ⟨getLine s, by simp only [getLine, hinput, hread], rfl, ?_⟩
        have hdvd : bufferSize - 1 ∣ header.length ↔ header = [] := by
          rw [← List.length_eq_zero_iff]
          exact ⟨fun hdvd => Nat.eq_zero_of_dvd_of_lt hdvd hfits, fun hzero => hzero ▸ dvd_zero _⟩
        rw [goesOn_getLine, hinput, hread, hdvd]
        simp
      · have hread := readLine_sentLine_full hline hfull rest
        have hrest : (getLine s).input = sentLine (header.drop (bufferSize - 1)) ++ rest := by
          simp only [getLine, hinput, hread]
        have hfront : (header.take (bufferSize - 1)).length = bufferSize - 1 :=
          List.length_take_of_le hfull
        have hgoes : GoesOn (getLine s) := by
          rw [goesOn_getLine, hinput, hread]
          refine ⟨fun heq => ?_, fun heq => ?_⟩
          · exact absurd ((congrArg List.length heq).symm.trans hfront) (by decide)
          · exact absurd ((congrArg List.length heq).symm.trans hfront) (by decide)
        have hlength : header.length = (header.drop (bufferSize - 1)).length + (bufferSize - 1) := by
          rw [List.length_drop]
          omega
        have hdvd : bufferSize - 1 ∣ header.length ↔
            bufferSize - 1 ∣ (header.drop (bufferSize - 1)).length := by
          rw [hlength]
          exact Nat.dvd_add_left (dvd_refl _)
        have hshort : (header.drop (bufferSize - 1)).length < header.length := by
          rw [hlength]
          exact Nat.lt_add_of_pos_right (by decide)
        rw [hdvd]
        exact ih _ hshort (fun c hc => hline c (List.mem_of_mem_drop hc)) hgoes hrest rfl

/-- Headers as a client sends them, with the blank line behind them. -/
def sentHeaders (headers : List Text) : Text := headers.flatMap sentLine ++ sentLine []

theorem sentHeaders_cons (header : Text) (headers : List Text) (body : Text) :
    sentHeaders (header :: headers) ++ body =
      sentLine header ++ (sentHeaders headers ++ body) := by
  simp [sentHeaders]

/-- Headers that do not fill the buffer are read to their end. -/
theorem discardHeaders_end
    (hheaders : ∀ header ∈ headers, OneLine header ∧ ¬ bufferSize - 1 ∣ header.length)
    (h : GoesOn s) (hinput : s.input = sentHeaders headers ++ body) :
    (discardHeaders s).input = body := by
  induction headers generalizing s with
  | nil =>
      obtain ⟨s', hs', hsame, hgoes⟩ :=
        discardHeaders_sentLine (by simp [OneLine] : OneLine []) h hinput
      have hstop : ¬ GoesOn s' := fun hgoes' => hgoes.mp hgoes' (dvd_zero _)
      rw [hsame, discardHeaders_stop hstop, hs']
  | cons header headers ih =>
      obtain ⟨⟨hline, hdvd⟩, hheaders⟩ := List.forall_mem_cons.mp hheaders
      obtain ⟨s', hs', hsame, hgoes⟩ :=
        discardHeaders_sentLine hline h (hinput.trans (sentHeaders_cons header headers body))
      rw [hsame, ih hheaders (hgoes.mpr hdvd) hs']

end Httpd

end CppProjects
