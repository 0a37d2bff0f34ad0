import Mathlib.Data.List.Perm.Basic
import Mathlib.Order.Defs.Unbundled

/-!
# Partitions of a range, and lists without an inversion
-/

namespace CppProjects

variable {α : Type*}

/-- A function that rearranges a range so that the elements which satisfy a
predicate come first, and returns where they end. -/
structure Partition (α : Type*) where
  rearranged : (α → Bool) → List α → List α
  dividePoint : (α → Bool) → List α → ℕ
  perm : ∀ accept range, (rearranged accept range).Perm range
  accepted : ∀ accept range,
    ∀ value ∈ (rearranged accept range).take (dividePoint accept range), accept value = true
  refused : ∀ accept range,
    ∀ value ∈ (rearranged accept range).drop (dividePoint accept range), accept value = false

namespace Partition

variable (partition : Partition α) (accept : α → Bool) (range : List α)

/-- `[begin, divide_point)`. -/
def front : List α :=
  (partition.rearranged accept range).take (partition.dividePoint accept range)

/-- `[divide_point, end)`. -/
def back : List α :=
  (partition.rearranged accept range).drop (partition.dividePoint accept range)

theorem front_append_back_perm :
    (partition.front accept range ++ partition.back accept range).Perm range := by
  rw [front, back, List.take_append_drop]
  exact partition.perm accept range

theorem length_front_add_length_back :
    (partition.front accept range).length + (partition.back accept range).length =
      range.length := by
  rw [← List.length_append]
  exact (partition.front_append_back_perm accept range).length_eq

theorem length_front_le : (partition.front accept range).length ≤ range.length := by
  have := partition.length_front_add_length_back accept range
  omega

theorem length_back_le : (partition.back accept range).length ≤ range.length := by
  have := partition.length_front_add_length_back accept range
  omega

/-- The partition that keeps the order on both sides. -/
def stable (α : Type*) : Partition α where
  rearranged accept range := range.filter accept ++ range.filter fun value => !accept value
  dividePoint accept range := (range.filter accept).length
  perm accept range := List.filter_append_perm accept range
  accepted accept range value hvalue := by
    rw [List.take_left, List.mem_filter] at hvalue
    exact hvalue.2
  refused accept range value hvalue := by
    rw [List.drop_left, List.mem_filter] at hvalue
    simpa using hvalue.2

end Partition

/-- No element comes after one it is less than. -/
def NonDecreasing (lt : α → α → Bool) (values : List α) : Prop :=
  values.Pairwise fun earlier later => lt later earlier = false

theorem nonDecreasing_nil (lt : α → α → Bool) : NonDecreasing lt [] :=
  List.Pairwise.nil

/-- Two parts on the two sides of a pivot; what equals the pivot may stand on
its right in any order. -/
theorem NonDecreasing.around {lt : α → α → Bool} [IsStrictOrder α fun x y => lt x y = true]
    {lower higher : List α} {pivot : α} (hlower : NonDecreasing lt lower)
    (hhigher : NonDecreasing lt higher) (hless : ∀ value ∈ lower, lt value pivot = true)
    (hnot : ∀ value ∈ higher, lt value pivot = false) :
    NonDecreasing lt (lower ++ pivot :: higher) := by
  rw [NonDecreasing, List.pairwise_append, List.pairwise_cons]
  refine ⟨hlower, ⟨hnot, hhigher⟩, fun earlier hearlier later hlater => ?_⟩
  have hlt := hless earlier hearlier
  rw [Bool.eq_false_iff]
  intro hinverted
  rcases List.mem_cons.mp hlater with rfl | hlater
  · exact asymm_of (fun x y => lt x y = true) hlt hinverted
  · have hpivot : lt later pivot = true := trans_of (fun x y => lt x y = true) hinverted hlt
    rw [hnot later hlater] at hpivot
    exact Bool.false_ne_true hpivot

end CppProjects
