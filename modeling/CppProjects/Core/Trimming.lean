import Mathlib.Tactic
import Mathlib.Data.List.DropRight
import Mathlib.Data.List.Infix

/-!
# Trimming a list at both ends

Dropping the elements that satisfy a predicate from both ends of a list.  The
result is the unique core of the list that neither starts nor ends with such an
element, however it is padded.
-/

namespace CppProjects

variable {α : Type} (p : α → Bool)

def trimBy (s : List α) : List α := (s.dropWhile p).rdropWhile p

/-- Neither end of the list satisfies the predicate. -/
def TrimmedBy (s : List α) : Prop :=
  (∀ c ∈ s.head?, p c = false) ∧ ∀ c ∈ s.getLast?, p c = false

instance (s : List α) : Decidable (TrimmedBy p s) := inferInstanceAs (Decidable (_ ∧ _))

variable {p}

theorem trimmedBy_nil : TrimmedBy p [] := ⟨by simp, by simp⟩

theorem rdropWhile_append_of_forall {s right : List α} (hright : ∀ c ∈ right, p c = true) :
    (s ++ right).rdropWhile p = s.rdropWhile p := by
  rw [List.rdropWhile, List.reverse_append, List.dropWhile_append_of_pos (by simpa using hright)]
  rfl

theorem dropWhile_of_head {s : List α} (hhead : ∀ c ∈ s.head?, p c = false) :
    s.dropWhile p = s := by
  cases s with
  | nil => rfl
  | cons c s => exact List.dropWhile_cons_of_neg (by simp [hhead c rfl])

theorem rdropWhile_of_last {s : List α} (hlast : ∀ c ∈ s.getLast?, p c = false) :
    s.rdropWhile p = s := by
  rw [List.rdropWhile, dropWhile_of_head (by simpa using hlast), List.reverse_reverse]

/-- Padding on either side is removed, and nothing else. -/
theorem trimBy_padded (left right : List α) {s : List α} (hleft : ∀ c ∈ left, p c = true)
    (hright : ∀ c ∈ right, p c = true) (htrimmed : TrimmedBy p s) :
    trimBy p (left ++ (s ++ right)) = s := by
  rw [trimBy, List.dropWhile_append_of_pos hleft]
  cases s with
  | nil =>
      rw [List.nil_append, List.dropWhile_eq_nil_iff.mpr hright]
      rfl
  | cons c s =>
      rw [dropWhile_of_head (by simpa using htrimmed.1), rdropWhile_append_of_forall hright,
        rdropWhile_of_last htrimmed.2]

theorem trimBy_of_trimmed {s : List α} (htrimmed : TrimmedBy p s) : trimBy p s = s := by
  simpa using trimBy_padded [] [] (by simp) (by simp) htrimmed

theorem trimBy_isInfix (s : List α) : trimBy p s <:+: s :=
  (List.rdropWhile_prefix p _).isInfix.trans (List.dropWhile_suffix p).isInfix

theorem mem_of_mem_trimBy {s : List α} {c : α} (hmem : c ∈ trimBy p s) : c ∈ s :=
  (trimBy_isInfix s).subset hmem

theorem length_trimBy_le (s : List α) : (trimBy p s).length ≤ s.length :=
  (trimBy_isInfix s).length_le

/-- With a good first element, trimming happens at the end only. -/
theorem trimBy_isPrefix {s : List α} (hhead : ∀ c ∈ s.head?, p c = false) : trimBy p s <+: s := by
  rw [trimBy, dropWhile_of_head hhead]
  exact List.rdropWhile_prefix p s

theorem trimmedBy_trimBy (s : List α) : TrimmedBy p (trimBy p s) := by
  have hdropped : ∀ c ∈ (s.dropWhile p).head?, p c = false := by
    intro c hc
    have hnot := List.head?_dropWhile_not p s
    rw [Option.mem_def.mp hc] at hnot
    simpa using hnot
  refine ⟨?_, ?_⟩
  · intro c hc
    have hdrop : trimBy p s <+: s.dropWhile p := List.rdropWhile_prefix p _
    obtain ⟨rest, hrest⟩ := hdrop
    cases htrim : trimBy p s with
    | nil => simp [htrim] at hc
    | cons c' t =>
        rw [htrim] at hc hrest
        obtain rfl : c' = c := by simpa using hc
        exact hdropped c' (by simp [← hrest])
  · intro c hc
    rw [trimBy, List.rdropWhile, List.getLast?_reverse] at hc
    have hnot := List.head?_dropWhile_not p (s.dropWhile p).reverse
    rw [Option.mem_def.mp hc] at hnot
    simpa using hnot

end CppProjects
