import CppProjects.Http.Requests

/-!
# Requests with a body

The loop for `POST` takes the length of the body from the headers, and so many characters
of the socket are handed to the program.  The character behind the colon of
`Content-Length:` is never looked at.
-/

namespace CppProjects

namespace Httpd

open CInt

variable {s : Reader} {host : Host} {stale : Stale} {header method url version rest body : Text}
  {headerLines : List Text} {turns : ℕ} {n : ℤ}

/-! ## The loop -/

theorem headerLoop_enough {turns' : ℕ} (h : turnsLeft s < turns) (h' : turnsLeft s < turns') :
    headerLoop turns s n = headerLoop turns' s n := by
  induction turns generalizing s n turns' with
  | zero => omega
  | succ turns ih =>
      obtain ⟨turns', rfl⟩ : ∃ k, turns' = k + 1 := ⟨turns' - 1, by omega⟩
      rw [headerLoop, headerLoop]
      split_ifs with hgoes
      · have hturns : turnsLeft (getLine { s with buf := s.buf.set 15 nul }) < turnsLeft s :=
          turnsLeft_getLine hgoes.1
        refine Option.bind_congr fun value _ => ?_
        exact ih (by omega) (by omega)
      · rfl

theorem readHeaders_stop (h : ¬ GoesOn s) : readHeaders s n = some (n, s) := by
  rw [readHeaders, headerLoop, if_neg h]

theorem readHeaders_next (h : GoesOn s) : readHeaders s n =
    (headerTurn s.buf n).bind
      (readHeaders (getLine { s with buf := s.buf.set 15 nul })) := by
  have hturns : turnsLeft (getLine { s with buf := s.buf.set 15 nul }) < turnsLeft s :=
    turnsLeft_getLine h.1
  have := turnsLeft_lt s
  rw [readHeaders, headerLoop, if_pos h]
  exact Option.bind_congr fun value _ => headerLoop_enough (by omega) (turnsLeft_lt _)

/-! ## One header -/

theorem length_decimal_le {n : ℤ} (hn : FitsInt n) : (decimal n).length ≤ 11 := by
  have hlength : (Nat.toDigits 10 n.natAbs).length ≤ 10 := by
    rw [Nat.length_toDigits_le_iff (by decide) (by decide)]
    obtain ⟨hlow, hhigh⟩ := hn
    omega
  rw [decimal]
  split_ifs
  · exact Nat.succ_le_succ hlength
  · omega

/-- `length_env` holds every `int`. -/
theorem contentLength_fits {n : ℤ} (hn : FitsInt n) :
    ("CONTENT_LENGTH=".toList ++ decimal n).length < 255 := by
  have := length_decimal_le hn
  rw [List.length_append, show "CONTENT_LENGTH=".toList.length = 15 from rfl]
  omega

end Httpd

end CppProjects
