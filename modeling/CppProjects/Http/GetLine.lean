import CppProjects.Ini.IntSettings

/-!
# `get_line`

The web server reads a socket line by line.  A line ends with LF, CR LF or CR, is stored
with a LF at its end, and is cut where the buffer is full.  A socket is the text that
still comes from it, and then it is closed.
-/

namespace CppProjects

namespace Httpd

/-- The next character that `get_line` stores: after a CR it looks at the one behind it,
and takes it too if it is a LF. -/
def recvChar : Text → Option (Char × Text)
  | [] => none
  | '\r' :: '\n' :: rest => some ('\n', rest)
  | '\r' :: rest => some ('\n', rest)
  | c :: rest => some (c, rest)

/-- The loop of `get_line` where `room` characters fit: the line, and what is still to
come. -/
def readLine : ℕ → Text → Text × Text
  | 0, input => ([], input)
  | room + 1, input =>
      match recvChar input with
      | none => ([], [])
      | some (c, rest) =>
          if c = '\n' then ([c], rest)
          else
            let next := readLine room rest
            (c :: next.1, next.2)

/-- A text with every end of a line as a LF. -/
def normalise : Text → Text
  | [] => []
  | '\r' :: '\n' :: rest => '\n' :: normalise rest
  | '\r' :: rest => '\n' :: normalise rest
  | c :: rest => c :: normalise rest

variable {c : Char} {input rest line text : Text} {room : ℕ}

theorem recvChar_lt (h : recvChar input = some (c, rest)) : rest.length < input.length := by
  unfold recvChar at h
  split at h <;> simp only [Option.some.injEq, Prod.mk.injEq, reduceCtorEq] at h
  all_goals
    obtain ⟨-, rfl⟩ := h
    simp only [List.length_cons]
    omega

theorem recvChar_eq_none : recvChar input = none ↔ input = [] := by
  constructor
  · intro h
    unfold recvChar at h
    split at h <;> simp_all
  · rintro rfl
    rfl

theorem normalise_of_recvChar (h : recvChar input = some (c, rest)) :
    normalise input = c :: normalise rest := by
  unfold recvChar at h
  split at h <;> simp only [Option.some.injEq, Prod.mk.injEq, reduceCtorEq] at h
  · obtain ⟨rfl, rfl⟩ := h
    rw [normalise]
  · next hne =>
      obtain ⟨rfl, rfl⟩ := h
      rw [normalise]
      exact hne
  · next hcrlf hcr =>
      obtain ⟨rfl, rfl⟩ := h
      rw [normalise]
      · exact hcrlf
      · exact hcr

/-- A character that does not end a line is stored as it is. -/
theorem recvChar_plain (hcr : c ≠ '\r') : recvChar (c :: rest) = some (c, rest) := by
  unfold recvChar
  split <;> simp_all

/-- What `get_line` stores is the next part of the normalised text, and it leaves the
part behind it. -/
theorem readLine_normalise (room : ℕ) (input : Text) :
    (readLine room input).1 ++ normalise (readLine room input).2 = normalise input := by
  induction room generalizing input with
  | zero => rfl
  | succ room ih =>
      rw [readLine]
      cases hrecv : recvChar input with
      | none => rw [recvChar_eq_none.mp hrecv]; rfl
      | some next =>
          obtain ⟨c, rest⟩ := next
          rw [normalise_of_recvChar hrecv]
          dsimp only
          split_ifs with hend
          · rfl
          · exact congrArg (c :: ·) (ih rest)

/-- `get_line` stores no more than fits. -/
theorem length_readLine_le (room : ℕ) (input : Text) : (readLine room input).1.length ≤ room := by
  induction room generalizing input with
  | zero => exact le_rfl
  | succ room ih =>
      rw [readLine]
      cases recvChar input with
      | none => exact Nat.zero_le _
      | some next =>
          dsimp only
          split_ifs
          · exact Nat.succ_le_succ (Nat.zero_le _)
          · exact Nat.succ_le_succ (ih next.2)

/-- A LF is the last character of its line. -/
theorem notMem_of_readLine (room : ℕ) (input : Text) : '\n' ∉ (readLine room input).1.dropLast := by
  induction room generalizing input with
  | zero => exact List.not_mem_nil
  | succ room ih =>
      rw [readLine]
      cases recvChar input with
      | none => exact List.not_mem_nil
      | some next =>
          dsimp only
          split_ifs with hend
          · exact List.not_mem_nil
          · intro hmem
            cases hline : (readLine room next.2).1 with
            | nil => simp [hline] at hmem
            | cons d line =>
                rw [hline, List.dropLast_cons_of_ne_nil (List.cons_ne_nil d line)] at hmem
                rcases List.mem_cons.mp hmem with heq | hmem
                · exact hend heq.symm
                · exact ih next.2 (hline ▸ hmem)

/-- A line that is neither full nor the last one ends with a LF. -/
theorem readLine_cases (room : ℕ) (input : Text) :
    (readLine room input).1.length = room ∨ (readLine room input).2 = [] ∨
      ∃ line, (readLine room input).1 = line ++ ['\n'] := by
  induction room generalizing input with
  | zero => exact .inl rfl
  | succ room ih =>
      rw [readLine]
      cases recvChar input with
      | none => exact .inr (.inl rfl)
      | some next =>
          dsimp only
          split_ifs with hend
          · exact .inr (.inr ⟨[], by rw [hend]; rfl⟩)
          · rcases ih next.2 with hfull | hlast | ⟨line, hline⟩
            · exact .inl (congrArg (· + 1) hfull)
            · exact .inr (.inl hlast)
            · exact .inr (.inr ⟨next.1 :: line, congrArg (next.1 :: ·) hline⟩)

theorem length_readLine_rest_le (room : ℕ) (input : Text) :
    (readLine room input).2.length ≤ input.length := by
  induction room generalizing input with
  | zero => exact le_rfl
  | succ room ih =>
      rw [readLine]
      cases hrecv : recvChar input with
      | none => exact Nat.zero_le _
      | some next =>
          have hlt := recvChar_lt hrecv
          dsimp only
          split_ifs
          · exact hlt.le
          · exact (ih next.2).trans hlt.le

/-- A call with room stores a character, if there is one to come. -/
theorem readLine_takes (hroom : 0 < room) (hinput : input ≠ []) :
    (readLine room input).2.length < input.length ∧ (readLine room input).1 ≠ [] := by
  obtain ⟨room, rfl⟩ := Nat.exists_eq_add_one.mpr hroom
  rw [readLine]
  cases hrecv : recvChar input with
  | none => exact absurd (recvChar_eq_none.mp hrecv) hinput
  | some next =>
      have hlt := recvChar_lt hrecv
      dsimp only
      split_ifs
      · exact ⟨hlt, List.cons_ne_nil _ _⟩
      · exact ⟨(length_readLine_rest_le room next.2).trans_lt hlt, List.cons_ne_nil _ _⟩

@[simp]
theorem readLine_nil (room : ℕ) : readLine room [] = ([], []) := by
  cases room <;> rfl

/-! ## Reading to the end -/

/-- What a caller gets that calls `get_line` until it stores nothing; a call with
characters to come takes one at least. -/
def readLines (room : ℕ) : ℕ → Text → List Text
  | 0, _ => []
  | calls + 1, input =>
      let next := readLine room input
      if next.1 = [] then [] else next.1 :: readLines room calls next.2

@[simp]
theorem readLines_nil (room calls : ℕ) : readLines room calls [] = [] := by
  cases calls <;> simp [readLines]

theorem readLines_cons (hroom : 0 < room) (calls : ℕ) (hinput : input ≠ []) :
    readLines room (calls + 1) input =
      (readLine room input).1 :: readLines room calls (readLine room input).2 :=
  if_neg (readLine_takes hroom hinput).2

/-- Nothing is lost or added: the pieces are the text with every end of a line as a LF. -/
theorem readLines_join (hroom : 0 < room) {calls : ℕ} (hcalls : input.length ≤ calls) :
    (readLines room calls input).flatten = normalise input := by
  induction calls generalizing input with
  | zero =>
      obtain rfl : input = [] := List.length_eq_zero_iff.mp (Nat.le_zero.mp hcalls)
      rfl
  | succ calls ih =>
      by_cases hinput : input = []
      · subst hinput
        simp [normalise]
      · have hlt := (readLine_takes hroom hinput).1
        rw [readLines_cons hroom calls hinput, List.flatten_cons, ih (by omega)]
        exact readLine_normalise room input

/-- A piece ends with its only LF, or it is full, or it is the last one. -/
theorem readLines_pieces (hroom : 0 < room) (calls : ℕ) (input : Text) :
    (∀ piece ∈ readLines room calls input, piece.length ≤ room ∧ '\n' ∉ piece.dropLast) ∧
      ∀ piece ∈ (readLines room calls input).dropLast,
        piece.length = room ∨ ∃ line, piece = line ++ ['\n'] := by
  induction calls generalizing input with
  | zero => simp [readLines]
  | succ calls ih =>
      by_cases hinput : input = []
      · subst hinput
        simp
      · obtain ⟨hpieces, hcuts⟩ := ih (readLine room input).2
        rw [readLines_cons hroom calls hinput]
        constructor
        · intro piece hmem
          rcases List.mem_cons.mp hmem with rfl | hmem
          · exact ⟨length_readLine_le room input, notMem_of_readLine room input⟩
          · exact hpieces piece hmem
        · intro piece hmem
          cases hrest : readLines room calls (readLine room input).2 with
          | nil => simp [hrest] at hmem
          | cons second others =>
              rw [hrest, List.dropLast_cons_of_ne_nil (List.cons_ne_nil _ _)] at hmem
              rcases List.mem_cons.mp hmem with rfl | hmem
              · rcases readLine_cases room input with hfull | hlast | hline
                · exact .inl hfull
                · rw [hlast, readLines_nil] at hrest
                  cases hrest
                · exact .inr hline
              · exact hcuts piece (hrest ▸ hmem)

/-- Whatever the size of the buffer, reading line by line gives the whole text with every
end of a line as a LF, cut after each LF and where the buffer is full, and nowhere else. -/
theorem readLines_faithful (hroom : 0 < room) {calls : ℕ} (hcalls : input.length ≤ calls) :
    (readLines room calls input).flatten = normalise input ∧
    (∀ piece ∈ readLines room calls input, piece.length ≤ room ∧ '\n' ∉ piece.dropLast) ∧
    ∀ piece ∈ (readLines room calls input).dropLast,
      piece.length = room ∨ ∃ line, piece = line ++ ['\n'] :=
  ⟨readLines_join hroom hcalls, readLines_pieces hroom calls input⟩

theorem readLines_faithful_crlf :
    (readLines 4 9 ['a', '\r', '\n', '\r', 'b', '\n']).flatten = ['a', '\n', '\n', 'b', '\n'] :=
  (readLines_faithful (by decide) (by decide)).1

/-! ## Lines that end with CR LF -/

/-- A line as a client sends it. -/
def sentLine (line : Text) : Text := line ++ ['\r', '\n']

/-- No character of the line ends it. -/
def OneLine (line : Text) : Prop := ∀ c ∈ line, c ≠ '\r' ∧ c ≠ '\n'

instance (line : Text) : Decidable (OneLine line) :=
  List.decidableBAll _ line

theorem readLine_append (hline : OneLine line) (room : ℕ) (rest : Text) :
    readLine (line.length + room) (line ++ rest) =
      (line ++ (readLine room rest).1, (readLine room rest).2) := by
  induction line with
  | nil => rw [List.length_nil, Nat.zero_add, List.nil_append, List.nil_append]
  | cons c line ih =>
      obtain ⟨hcr, hlf⟩ := hline c List.mem_cons_self
      rw [List.length_cons, List.cons_append, Nat.add_right_comm, readLine, recvChar_plain hcr]
      dsimp only
      rw [if_neg hlf, ih fun d hd => hline d (List.mem_cons_of_mem _ hd)]
      rfl

/-- A line that fits is read whole. -/
theorem readLine_sentLine (hline : OneLine line) (hfits : line.length < room) (rest : Text) :
    readLine room (sentLine line ++ rest) = (line ++ ['\n'], rest) := by
  obtain ⟨extra, rfl⟩ := Nat.exists_eq_add_of_lt hfits
  rw [sentLine, List.append_assoc, Nat.add_assoc, readLine_append hline]
  rfl

/-- The front of a line that does not fit is read, and the rest of it is left. -/
theorem readLine_sentLine_full (hline : OneLine line) (hfull : room ≤ line.length) (rest : Text) :
    readLine room (sentLine line ++ rest) =
      (line.take room, sentLine (line.drop room) ++ rest) := by
  have htake : (line.take room).length = room := List.length_take_of_le hfull
  have hfront : OneLine (line.take room) := fun c hc => hline c (List.mem_of_mem_take hc)
  have hread := readLine_append hfront 0 (sentLine (line.drop room) ++ rest)
  rw [htake, Nat.add_zero] at hread
  have hsplit : sentLine line ++ rest = line.take room ++ (sentLine (line.drop room) ++ rest) := by
    simp only [sentLine, ← List.append_assoc, List.take_append_drop]
  rw [hsplit, hread]
  simp [readLine]

end Httpd

end CppProjects
