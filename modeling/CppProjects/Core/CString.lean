import Mathlib.Data.List.Basic
import Mathlib.Data.List.TakeWhile
import Mathlib.Tactic.Common

/-!
# C strings in a block of memory

A block is a list of characters and a pointer into it is an offset.  The string
at a pointer ends before the first zero; with no zero left in the block, reading
it is undefined, and so is every function of the library that reads it.
-/

namespace CppProjects

namespace CString

variable {β : Type*} [DecidableEq β] [Zero β]

/-- The characters from `start` to the first zero, which is left out. -/
def stringAt (block : List β) (start : ℕ) : Option (List β) :=
  if 0 ∈ block.drop start then some ((block.drop start).takeWhile (· != 0)) else none

/-- `strchr`: where the string at `start` has its first `c`. -/
def strchr (c : β) (block : List β) (start : ℕ) : Option (Option ℕ) :=
  (stringAt block start).map fun text =>
    if c ∈ text then some (start + text.idxOf c) else none

/-- What `strtok` leaves: the block, the token's first character and the pointer
that the next call continues from. -/
structure Token (β : Type*) where
  block : List β
  first : ℕ
  saved : ℕ

/-- `strtok` with one delimiter.  Leading delimiters are skipped; the delimiter
behind the token is overwritten with a zero, and with none there the next call
finds the end of the string. -/
def strtok (delimiter : β) (block : List β) (saved : ℕ) : Option (Option (Token β)) :=
  (stringAt block saved).map fun text =>
    let rest := text.dropWhile (· == delimiter)
    let token := rest.takeWhile (· != delimiter)
    let first := saved + (text.length - rest.length)
    let last := first + token.length
    if rest.length = 0 then none
    else if token.length = rest.length then some ⟨block, first, last⟩
    else some ⟨block.set last 0, first, last + 1⟩

section Lookup

variable {before text behind block : List β} {start : ℕ} {c delimiter : β}

omit [DecidableEq β] [Zero β] in
theorem takeWhile_seam {p : β → Bool} (hall : ∀ x ∈ text, p x = true) (hstop : p c = false) :
    (text ++ c :: behind).takeWhile p = text := by
  rw [List.takeWhile_append_of_pos hall, List.takeWhile_cons_of_neg (by simp [hstop]),
    List.append_nil]

omit [DecidableEq β] [Zero β] in
theorem dropWhile_id {p : β → Bool} (hnone : ∀ x ∈ text, p x = false) :
    text.dropWhile p = text := by
  cases text with
  | nil => rfl
  | cons x text => exact List.dropWhile_cons_of_neg (by simp [hnone x List.mem_cons_self])

theorem stringAt_seam (hzero : 0 ∉ text) :
    stringAt (before ++ (text ++ 0 :: behind)) before.length = some text := by
  have hdrop : (before ++ (text ++ 0 :: behind)).drop before.length = text ++ 0 :: behind :=
    List.drop_left
  rw [stringAt, hdrop, if_pos (by simp), takeWhile_seam _ (by simp)]
  intro x hx
  exact bne_iff_ne.mpr fun hzero' => hzero (hzero' ▸ hx)

theorem stringAt_zero (hzero : 0 ∉ text) : stringAt (text ++ 0 :: behind) 0 = some text := by
  have hseam : stringAt ([] ++ (text ++ 0 :: behind)) ([] : List β).length = some text :=
    stringAt_seam hzero
  exact hseam

/-- A block splits at each of its strings. -/
theorem exists_seam (htext : stringAt block start = some text) :
    ∃ before behind, block = before ++ (text ++ 0 :: behind) ∧ before.length = start ∧
      0 ∉ text := by
  rw [stringAt] at htext
  split at htext
  case isFalse => simp at htext
  case isTrue hmem =>
    rw [Option.some.injEq] at htext
    have hstart : start ≤ block.length := by
      by_contra hlong
      rw [List.drop_eq_nil_of_le (by omega)] at hmem
      exact List.not_mem_nil hmem
    have hzero : 0 ∉ text := by
      intro hzero
      rw [← htext] at hzero
      simpa using List.mem_takeWhile_imp hzero
    have hsplit := List.takeWhile_append_dropWhile (p := (· != 0)) (l := block.drop start)
    rw [htext] at hsplit
    cases hbehind : (block.drop start).dropWhile (· != 0) with
    | nil =>
        rw [hbehind, List.append_nil] at hsplit
        exact absurd (hsplit ▸ hmem) hzero
    | cons x behind =>
        have hx := List.head?_dropWhile_not (· != 0) (block.drop start)
        rw [hbehind] at hx hsplit
        have hx : x = 0 := by simpa using hx
        refine ⟨block.take start, behind, ?_, List.length_take_of_le hstart, hzero⟩
        rw [← hx, hsplit, List.take_append_drop]

/-- A string that ends in a block is there however the block goes on. -/
theorem stringAt_append (htext : stringAt block start = some text) (behind : List β) :
    stringAt (block ++ behind) start = some text := by
  obtain ⟨before, behind', rfl, rfl, hzero⟩ := exists_seam htext
  rw [List.append_assoc, List.append_assoc, List.cons_append]
  exact stringAt_seam hzero

theorem strchr_seam (hzero : 0 ∉ before ++ c :: text) (hc : c ∉ before) {front : List β} :
    strchr c (front ++ ((before ++ c :: text) ++ 0 :: behind)) front.length =
      some (some (front.length + before.length)) := by
  rw [strchr, stringAt_seam hzero, Option.map_some, if_pos (by simp),
    List.idxOf_append_of_notMem hc, List.idxOf_cons_self, Nat.add_zero]

theorem strchr_of_notMem (hzero : 0 ∉ text) (hc : c ∉ text) :
    strchr c (before ++ (text ++ 0 :: behind)) before.length = some none := by
  rw [strchr, stringAt_seam hzero, Option.map_some, if_neg hc]

omit [DecidableEq β] in
/-- The character at a seam overwritten with a zero. -/
theorem set_seam : (before ++ (text ++ c :: behind)).set (before.length + text.length) 0 =
    before ++ (text ++ 0 :: behind) := by
  rw [List.set_append_right _ _ (by omega), List.set_append_right _ _ (by omega)]
  simp

theorem strtok_end : strtok delimiter (before ++ 0 :: behind) before.length = some none := by
  have hnil : stringAt (before ++ ([] ++ 0 :: behind)) before.length = some [] :=
    stringAt_seam List.not_mem_nil
  rw [List.nil_append] at hnil
  rw [strtok, hnil]
  rfl

/-- The last token of a string, where `strtok` writes nothing. -/
theorem strtok_last (hzero : 0 ∉ text) (hdelimiter : delimiter ∉ text) (htext : text ≠ []) :
    strtok delimiter (before ++ (text ++ 0 :: behind)) before.length =
      some (some ⟨before ++ (text ++ 0 :: behind), before.length,
        before.length + text.length⟩) := by
  have hdrop : text.dropWhile (· == delimiter) = text :=
    dropWhile_id fun x hx => beq_eq_false_iff_ne.mpr fun hsame => hdelimiter (hsame ▸ hx)
  have htake : text.takeWhile (· != delimiter) = text :=
    List.takeWhile_eq_self_iff.mpr fun x hx =>
      bne_iff_ne.mpr fun hsame => hdelimiter (hsame ▸ hx)
  rw [strtok, stringAt_seam hzero, Option.map_some]
  simp only [hdrop, htake, Nat.sub_self, Nat.add_zero, if_true]
  rw [if_neg (by simpa using htext)]

/-- A token with a delimiter behind it. -/
theorem strtok_cut {more : List β} (hzero : 0 ∉ text ++ delimiter :: more)
    (hdelimiter : delimiter ∉ text) (htext : text ≠ []) :
    strtok delimiter (before ++ ((text ++ delimiter :: more) ++ 0 :: behind)) before.length =
      some (some ⟨before ++ (text ++ 0 :: (more ++ 0 :: behind)), before.length,
        before.length + text.length + 1⟩) := by
  have hdrop : (text ++ delimiter :: more).dropWhile (· == delimiter) =
      text ++ delimiter :: more := by
    cases text with
    | nil => exact absurd rfl htext
    | cons x text =>
        rw [List.cons_append, List.dropWhile_cons_of_neg]
        simp only [beq_iff_eq]
        exact fun hsame => hdelimiter (hsame ▸ List.mem_cons_self)
  have htake : (text ++ delimiter :: more).takeWhile (· != delimiter) = text :=
    takeWhile_seam (fun x hx => bne_iff_ne.mpr fun hsame => hdelimiter (hsame ▸ hx)) (by simp)
  rw [strtok, stringAt_seam hzero, Option.map_some]
  simp only [hdrop, htake, Nat.sub_self, Nat.add_zero]
  rw [if_neg (by simp), if_neg (by simp), List.append_assoc, List.cons_append, set_seam]

omit [Zero β] in
/-- Behind the skipped delimiters there is a token or nothing. -/
theorem token_length_pos (hrest : ¬ (text.dropWhile (· == delimiter)).length = 0) :
    0 < ((text.dropWhile (· == delimiter)).takeWhile (· != delimiter)).length := by
  cases hcons : text.dropWhile (· == delimiter) with
  | nil => simp [hcons] at hrest
  | cons x rest =>
      have hx := List.head?_dropWhile_not (· == delimiter) text
      rw [hcons] at hx
      have hx : ¬ x = delimiter := by simpa using hx
      simp [hx]

/-- Each token lets the next call start further on, in the same block. -/
theorem strtok_advances {token : Token β} {saved : ℕ}
    (htoken : strtok delimiter block saved = some (some token)) :
    token.block.length - token.saved < block.length - saved := by
  cases htext : stringAt block saved with
  | none => simp [strtok, htext] at htoken
  | some text =>
      obtain ⟨before, behind, rfl, rfl, -⟩ := exists_seam htext
      simp only [strtok, htext, Option.map_some, Option.some.injEq] at htoken
      split at htoken
      case isTrue => cases htoken
      case isFalse hrest =>
        have hpos := token_length_pos hrest
        split at htoken <;> cases htoken
        · simp only [List.length_append, List.length_cons]
          omega
        · simp only [List.length_set, List.length_append, List.length_cons]
          omega

end Lookup

end CString

end CppProjects
