import CppProjects.Core.Partition

/-!
# `sequential_quick_sort` and `parallel_quick_sort`

The first element is spliced out as the pivot, the rest is partitioned, and the
two sorted parts are spliced around it.  The parallel version gets its lower
part from a `std::future`, whose task may run at once or when it is asked for.
-/

namespace CppProjects

variable {α β : Type*}

/-- `std::launch`; without a policy, `std::async` is free to take either. -/
inductive Launch where
  | async
  | deferred
  deriving DecidableEq, Repr

inductive Future (β : Type*) where
  | ready (value : β)
  | waiting (task : Unit → β)

namespace Future

def get : Future β → β
  | ready value => value
  | waiting task => task ()

def async (launch : Launch) (task : Unit → β) : Future β :=
  match launch with
  | .async => ready (task ())
  | .deferred => waiting task

@[simp]
theorem get_async (launch : Launch) (task : Unit → β) : (async launch task).get = task () := by
  cases launch <;> rfl

end Future

section Sorts

open scoped List

variable (lt : α → α → Bool) (partition : Partition α)

def sequentialQuickSort : List α → List α
  | [] => []
  | pivot :: input =>
      let lowerPart := partition.front (fun t => lt t pivot) input
      let newLower := sequentialQuickSort lowerPart
      let newHigher := sequentialQuickSort (partition.back (fun t => lt t pivot) input)
      newLower ++ ([pivot] ++ newHigher)
  termination_by input => input.length
  decreasing_by
    · exact Nat.lt_succ_of_le (partition.length_front_le _ input)
    · exact Nat.lt_succ_of_le (partition.length_back_le _ input)

/-- `launch` is what `std::async` decides for the part it is given. -/
def parallelQuickSort (launch : List α → Launch) : List α → List α
  | [] => []
  | pivot :: input =>
      let lowerPart := partition.front (fun t => lt t pivot) input
      let newLower := Future.async (launch lowerPart) fun _ => parallelQuickSort launch lowerPart
      let newHigher := parallelQuickSort launch (partition.back (fun t => lt t pivot) input)
      newLower.get ++ ([pivot] ++ newHigher)
  termination_by input => input.length
  decreasing_by
    · exact Nat.lt_succ_of_le (partition.length_front_le _ input)
    · exact Nat.lt_succ_of_le (partition.length_back_le _ input)

theorem sequentialQuickSort_perm (input : List α) :
    (sequentialQuickSort lt partition input).Perm input := by
  induction input using sequentialQuickSort.induct lt partition with
  | case1 => rw [sequentialQuickSort]
  | case2 pivot input lowerPart hlower hhigher =>
      rw [sequentialQuickSort]
      calc
        _ ~ lowerPart ++ ([pivot] ++ partition.back _ input) :=
          hlower.append (hhigher.append_left [pivot])
        _ ~ pivot :: (lowerPart ++ partition.back _ input) := List.perm_middle
        _ ~ pivot :: input := (partition.front_append_back_perm _ input).cons pivot

theorem sequentialQuickSort_nonDecreasing [IsStrictOrder α fun x y => lt x y = true]
    (input : List α) : NonDecreasing lt (sequentialQuickSort lt partition input) := by
  induction input using sequentialQuickSort.induct lt partition with
  | case1 =>
      rw [sequentialQuickSort]
      exact nonDecreasing_nil lt
  | case2 pivot input lowerPart hlower hhigher =>
      rw [sequentialQuickSort]
      refine hlower.around hhigher (fun value hvalue => ?_) fun value hvalue => ?_
      · exact partition.accepted _ input value
          ((sequentialQuickSort_perm lt partition lowerPart).mem_iff.mp hvalue)
      · exact partition.refused _ input value
          ((sequentialQuickSort_perm lt partition _).mem_iff.mp hvalue)

/-- A future gives the list that a call in its place would return. -/
theorem parallelQuickSort_eq (launch : List α → Launch) (input : List α) :
    parallelQuickSort lt partition launch input = sequentialQuickSort lt partition input := by
  induction input using sequentialQuickSort.induct lt partition with
  | case1 => rw [parallelQuickSort, sequentialQuickSort]
  | case2 pivot input lowerPart hlower hhigher =>
      rw [parallelQuickSort, sequentialQuickSort]
      simp only [Future.get_async]
      rw [hlower, hhigher]

/-- Both sorts return one permutation of the input without an inversion,
whatever rearranges the ranges and whenever the futures run. -/
theorem quickSorts_sort [IsStrictWeakOrder α fun x y => lt x y = true]
    (launch : List α → Launch) (input : List α) :
    (sequentialQuickSort lt partition input).Perm input ∧
      NonDecreasing lt (sequentialQuickSort lt partition input) ∧
      (parallelQuickSort lt partition launch input).Perm input ∧
      NonDecreasing lt (parallelQuickSort lt partition launch input) ∧
      parallelQuickSort lt partition launch input = sequentialQuickSort lt partition input := by
  have hperm := sequentialQuickSort_perm lt partition input
  have hsorted := sequentialQuickSort_nonDecreasing lt partition input
  rw [parallelQuickSort_eq]
  exact ⟨hperm, hsorted, hperm, hsorted, rfl⟩

end Sorts

theorem int_isStrictWeakOrder :
    IsStrictWeakOrder Int fun x y => decide (x < y) = true where
  irrefl x := by simp
  trans x y z hxy hyz := decide_eq_true (by
    have := of_decide_eq_true hxy
    have := of_decide_eq_true hyz
    omega)
  incomp_trans x y z hxy hyz := by
    simp only [decide_eq_true_eq] at hxy hyz ⊢
    omega

/-- The list of `main`, with two equal elements, and every future deferred. -/
theorem quickSorts_sort_main :
    let lt : Int → Int → Bool := fun x y => decide (x < y)
    let sequential := sequentialQuickSort lt (Partition.stable Int) [4, 6, 7, 8, 9, 3, 4, 5]
    let parallel := parallelQuickSort lt (Partition.stable Int) (fun _ => .deferred)
      [4, 6, 7, 8, 9, 3, 4, 5]
    sequential.Perm [4, 6, 7, 8, 9, 3, 4, 5] ∧ NonDecreasing lt sequential ∧
      parallel.Perm [4, 6, 7, 8, 9, 3, 4, 5] ∧ NonDecreasing lt parallel ∧
      parallel = sequential := by
  intro lt sequential parallel
  have : IsStrictWeakOrder Int fun x y => lt x y = true := int_isStrictWeakOrder
  exact quickSorts_sort lt (Partition.stable Int) (fun _ => .deferred) [4, 6, 7, 8, 9, 3, 4, 5]

end CppProjects
