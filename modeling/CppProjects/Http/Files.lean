import CppProjects.Http.Httpd

/-!
# What is sent of a file

`cat` sends a piece of the file when it has read the piece and has not met the end.  The
characters behind the last line feed meet it, unless they fill the buffer.
-/

namespace CppProjects

namespace Httpd

variable {c : Char} {file line rest tail : Text} {lines : List Text} {room turns : ℕ}

theorem fgets_append (hline : '\n' ∉ line) (room : ℕ) (rest : Text) :
    fgets (line.length + room) (line ++ rest) =
      { fgets room rest with text := line ++ (fgets room rest).text } := by
  induction line with
  | nil => rw [List.length_nil, Nat.zero_add, List.nil_append, List.nil_append]
  | cons c line ih =>
      obtain ⟨hc, hline⟩ := not_or.mp (List.mem_cons.not.mp hline)
      rw [List.length_cons, List.cons_append, Nat.add_right_comm, fgets, if_neg (Ne.symm hc), ih hline]
      rfl

theorem fgets_line (hline : '\n' ∉ line) (hfits : line.length < room) (rest : Text) :
    fgets room (line ++ '\n' :: rest) = ⟨line ++ ['\n'], rest, false⟩ := by
  obtain ⟨extra, rfl⟩ := Nat.exists_eq_add_of_lt hfits
  rw [Nat.add_assoc, fgets_append hline, fgets, if_pos rfl]

theorem fgets_full (hline : '\n' ∉ line) (hfull : room ≤ line.length) (rest : Text) :
    fgets room (line ++ rest) = ⟨line.take room, line.drop room ++ rest, false⟩ := by
  have htake : (line.take room).length = room := List.length_take_of_le hfull
  have hfront : '\n' ∉ line.take room := fun hmem => hline (List.mem_of_mem_take hmem)
  have hread := fgets_append hfront 0 (line.drop room ++ rest)
  rw [htake, Nat.add_zero, ← List.append_assoc, List.take_append_drop] at hread
  rw [hread]
  simp [fgets]

theorem fgets_end (hline : '\n' ∉ line) (hfits : line.length < room) :
    fgets room line = ⟨line, [], true⟩ := by
  obtain ⟨extra, rfl⟩ := Nat.exists_eq_add_of_lt hfits
  have hread := fgets_append hline (extra + 1) []
  rw [List.append_nil, ← Nat.add_assoc] at hread
  rw [hread]
  simp [fgets]

/-- A piece that is sent takes a character of the file. -/
theorem fgets_takes (hroom : 0 < room) (heof : (fgets room file).eof = false) :
    (fgets room file).rest.length < file.length := by
  have hrest (room : ℕ) (file : Text) : (fgets room file).rest.length ≤ file.length := by
    induction room generalizing file with
    | zero => exact le_rfl
    | succ room ih =>
        cases file with
        | nil => exact le_rfl
        | cons c file =>
            rw [fgets]
            split_ifs
            · exact Nat.le_succ _
            · exact (ih file).trans (Nat.le_succ _)
  obtain ⟨room, rfl⟩ := Nat.exists_eq_add_one.mpr hroom
  cases file with
  | nil => cases heof
  | cons c file =>
      rw [fgets]
      split_ifs
      · exact Nat.lt_succ_self _
      · exact Nat.lt_succ_of_le (hrest room file)

theorem catLoop_enough (hturns : file.length < turns) : catLoop turns file = cat file := by
  have hall (turns turns' : ℕ) (file : Text) (h : file.length < turns) (h' : file.length < turns') :
      catLoop turns file = catLoop turns' file := by
    induction turns generalizing file turns' with
    | zero => omega
    | succ turns ih =>
        obtain ⟨turns', rfl⟩ : ∃ k, turns' = k + 1 := ⟨turns' - 1, by omega⟩
        rw [catLoop, catLoop]
        split_ifs with heof
        · rfl
        · have hlt := fgets_takes (by decide : 0 < bufferSize - 1) (Bool.eq_false_iff.mpr heof)
          rw [ih turns' _ (by omega) (by omega)]
  exact hall _ _ file hturns (Nat.lt_succ_self _)

theorem cat_eq (file : Text) : cat file =
    if (fgets (bufferSize - 1) file).eof then []
    else cString (fgets (bufferSize - 1) file).text ++ cat (fgets (bufferSize - 1) file).rest := by
  rw [cat, catLoop]
  split_ifs with heof
  · rfl
  · have hroom : 0 < bufferSize - 1 := by decide
    rw [catLoop_enough (fgets_takes hroom (Bool.eq_false_iff.mpr heof))]

theorem cString_eq_self (hnul : nul ∉ line) : cString line = line :=
  List.takeWhile_eq_self_iff.mpr fun _ hc => bne_iff_ne.mpr fun heq => hnul (heq ▸ hc)

/-- A line that ends is sent. -/
theorem cat_line (hline : '\n' ∉ line) (hnul : nul ∉ line) (rest : Text) :
    cat (line ++ '\n' :: rest) = line ++ '\n' :: cat rest := by
  induction hlength : line.length using Nat.strong_induction_on generalizing line with
  | _ k ih =>
      subst hlength
      rw [cat_eq]
      rcases lt_or_ge line.length (bufferSize - 1) with hfits | hfull
      · have hstring : nul ∉ line ++ ['\n'] := by
          simp only [List.mem_append, hnul, false_or]
          decide
        rw [fgets_line hline hfits, if_neg Bool.false_ne_true, cString_eq_self hstring]
        simp
      · have hfront : nul ∉ line.take (bufferSize - 1) := fun hmem => hnul (List.mem_of_mem_take hmem)
        have hshort : (line.drop (bufferSize - 1)).length < line.length := by
          rw [List.length_drop]
          exact Nat.sub_lt (lt_of_lt_of_le (by decide) hfull) (by decide)
        rw [fgets_full hline hfull, if_neg Bool.false_ne_true, cString_eq_self hfront,
          ih _ hshort (fun hmem => hline (List.mem_of_mem_drop hmem))
            (fun hmem => hnul (List.mem_of_mem_drop hmem)) rfl,
          ← List.append_assoc, List.take_append_drop]

/-- Of what is behind the last line, the part is sent that fills the buffer. -/
theorem cat_tail (hline : '\n' ∉ tail) (hnul : nul ∉ tail) :
    cat tail = tail.take (tail.length / (bufferSize - 1) * (bufferSize - 1)) := by
  induction hlength : tail.length using Nat.strong_induction_on generalizing tail with
  | _ k ih =>
      subst hlength
      rw [cat_eq]
      rcases lt_or_ge tail.length (bufferSize - 1) with hfits | hfull
      · rw [fgets_end hline hfits, if_pos rfl, Nat.div_eq_of_lt hfits, zero_mul, List.take_zero]
      · have hfront : nul ∉ tail.take (bufferSize - 1) := fun hmem => hnul (List.mem_of_mem_take hmem)
        have hshort : (tail.drop (bufferSize - 1)).length < tail.length := by
          rw [List.length_drop]
          exact Nat.sub_lt (lt_of_lt_of_le (by decide) hfull) (by decide)
        have hfgets := fgets_full hline hfull []
        rw [List.append_nil, List.append_nil] at hfgets
        have hdiv : tail.length / (bufferSize - 1) =
            (tail.drop (bufferSize - 1)).length / (bufferSize - 1) + 1 := by
          rw [List.length_drop]
          exact Nat.div_eq_sub_div (by decide) hfull
        rw [hfgets, if_neg Bool.false_ne_true, cString_eq_self hfront,
          ih _ hshort (fun hmem => hline (List.mem_of_mem_drop hmem))
            (fun hmem => hnul (List.mem_of_mem_drop hmem)) rfl,
          hdiv, Nat.add_mul, one_mul, Nat.add_comm, List.take_add]

/-- A text file is sent whole up to its last line feed.  Of what is behind that, only as
much is sent as fills the buffer a whole number of times. -/
theorem cat_text (hlines : ∀ line ∈ lines, '\n' ∉ line ∧ nul ∉ line) (hline : '\n' ∉ tail)
    (hnul : nul ∉ tail) :
    cat (lines.flatMap (· ++ ['\n']) ++ tail) =
      lines.flatMap (· ++ ['\n']) ++
        tail.take (tail.length / (bufferSize - 1) * (bufferSize - 1)) := by
  induction lines with
  | nil => exact cat_tail hline hnul
  | cons first lines ih =>
      obtain ⟨hfirst, hlines⟩ := List.forall_mem_cons.mp hlines
      simp only [List.flatMap_cons, List.append_assoc, List.cons_append, List.nil_append]
      rw [cat_line hfirst.1 hfirst.2, ih hlines]

end Httpd

end CppProjects
