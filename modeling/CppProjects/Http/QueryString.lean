import CppProjects.Http.UrlDecode

/-!
# Query strings

Pairs written as `name=value` and joined with `&`, and what one turn of a
`strtok` loop finds in a block that holds them.
-/

namespace CppProjects

namespace QueryString

open CString UrlDecode

abbrev Pair := List UInt8 × List UInt8

def assignment (pair : Pair) : List UInt8 := pair.1 ++ equals :: pair.2

def joined : List Pair → List UInt8
  | [] => []
  | [pair] => assignment pair
  | pair :: next :: pairs => assignment pair ++ ampersand :: joined (next :: pairs)

/-- The joined string can be taken apart again. -/
structure Separable (pair : Pair) : Prop where
  nul : 0 ∉ assignment pair
  ampersand : ampersand ∉ assignment pair
  equals : equals ∉ pair.1

section Turn

variable {before : List UInt8} {pair : Pair} {pairs : List Pair}

theorem assignment_ne_nil (pair : Pair) : assignment pair ≠ [] := by
  simp [assignment]

theorem joined_nul (hpairs : ∀ pair ∈ pairs, Separable pair) : 0 ∉ joined pairs := by
  induction pairs using joined.induct with
  | case1 => exact List.not_mem_nil
  | case2 pair => exact (hpairs pair List.mem_cons_self).nul
  | case3 pair next pairs ih =>
      have hpair := (hpairs pair List.mem_cons_self).nul
      have hrest := ih fun other hother => hpairs other (List.mem_cons_of_mem _ hother)
      have hampersand : ¬ (0 : UInt8) = UrlDecode.ampersand := by decide
      simp only [joined, List.mem_append, List.mem_cons, not_or]
      exact ⟨hpair, hampersand, hrest⟩

/-- `strtok` finds the next pair.  What closes it is the zero written over a `&`,
or else the end of the string. -/
theorem strtok_joined (before behind : List UInt8)
    (hpairs : ∀ other ∈ pair :: pairs, Separable other) :
    ∃ closing rest,
      strtok ampersand (before ++ (joined (pair :: pairs) ++ 0 :: behind)) before.length =
        some (some ⟨before ++ (assignment pair ++ 0 :: rest), before.length,
          before.length + (assignment pair ++ closing).length⟩) ∧
      closing ++ (joined pairs ++ 0 :: behind) = 0 :: rest ∧ (closing = [0] ∨ pairs = []) := by
  have hpair := hpairs pair List.mem_cons_self
  cases pairs with
  | nil =>
      refine ⟨[], behind, ?_, rfl, .inr rfl⟩
      rw [List.append_nil]
      exact strtok_last hpair.nul hpair.ampersand (assignment_ne_nil pair)
  | cons next pairs =>
      refine ⟨[0], joined (next :: pairs) ++ 0 :: behind, ?_, rfl, .inl rfl⟩
      rw [List.length_append, ← Nat.add_assoc]
      exact strtok_cut (joined_nul hpairs) hpair.ampersand (assignment_ne_nil pair)

/-- The first `=` of a pair stands behind its name. -/
theorem strchr_assignment (hpair : Separable pair) {rest : List UInt8} :
    strchr equals (before ++ (assignment pair ++ 0 :: rest)) before.length =
      some (some (before.length + pair.1.length)) :=
  strchr_seam hpair.nul hpair.equals

/-- With the `=` overwritten the name and the value are two strings. -/
theorem split_assignment (before rest : List UInt8) (hpair : Separable pair) :
    (before ++ (assignment pair ++ 0 :: rest)).set (before.length + pair.1.length) 0 =
        before ++ (pair.1 ++ 0 :: (pair.2 ++ 0 :: rest)) ∧
      stringAt (before ++ (pair.1 ++ 0 :: (pair.2 ++ 0 :: rest))) before.length = some pair.1 ∧
      stringAt (before ++ (pair.1 ++ 0 :: (pair.2 ++ 0 :: rest)))
        (before.length + pair.1.length + 1) = some pair.2 := by
  have hnul := hpair.nul
  simp only [assignment, List.mem_append, List.mem_cons, not_or] at hnul
  refine ⟨?_, stringAt_seam hnul.1, ?_⟩
  · rw [assignment, List.append_assoc, List.cons_append]
    exact set_seam
  · have hvalue : stringAt ((before ++ pair.1 ++ [0]) ++ (pair.2 ++ 0 :: rest))
        (before ++ pair.1 ++ [0]).length = some pair.2 := stringAt_seam hnul.2.2
    simpa [Nat.add_assoc] using hvalue

/-- The block up to the next token, when the pair behind `before` has been split. -/
def taken (before : List UInt8) (pair : Pair) (closing : List UInt8) : List UInt8 :=
  before ++ (pair.1 ++ 0 :: (pair.2 ++ closing))

theorem taken_append {closing rest rest' : List UInt8} (hclosing : closing ++ rest' = 0 :: rest) :
    taken before pair closing ++ rest' = before ++ (pair.1 ++ 0 :: (pair.2 ++ 0 :: rest)) := by
  rw [← hclosing]
  simp only [taken, List.append_assoc, List.cons_append]

theorem length_taken (before closing : List UInt8) (pair : Pair) :
    (taken before pair closing).length =
      before.length + (assignment pair ++ closing).length := by
  simp only [taken, assignment, List.length_append, List.length_cons]
  omega

end Turn

end QueryString

end CppProjects
