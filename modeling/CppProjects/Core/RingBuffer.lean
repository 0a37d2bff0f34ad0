import Mathlib.Tactic

/-!
# Ring buffers

Positions in a circular array of `capacity` cells: the layout of a queue with a
front, a rear and a size, and the list of its cells from the front on.
-/

namespace CppProjects

/-- The positions of a queue in its circular array. -/
structure RingLayout (capacity size front rear : ℤ) : Prop where
  size_nonneg : 0 ≤ size
  size_le : size ≤ capacity
  front_nonneg : 0 ≤ front
  front_lt : front < capacity
  rear_nonneg : 0 ≤ rear
  rear_lt : rear < capacity
  rear_eq : rear = (front + size) % capacity

namespace RingLayout

variable {capacity size front rear : ℤ}

theorem empty (hcapacity : 1 ≤ capacity) : RingLayout capacity 0 0 0 :=
  ⟨by omega, by omega, by omega, by omega, by omega, by omega, by simp⟩

theorem push (hlayout : RingLayout capacity size front rear) (hroom : size ≠ capacity) :
    RingLayout capacity (size + 1) front ((rear + 1) % capacity) where
  size_nonneg := by linarith [hlayout.size_nonneg]
  size_le := by have := hlayout.size_le; omega
  front_nonneg := hlayout.front_nonneg
  front_lt := hlayout.front_lt
  rear_nonneg := Int.emod_nonneg _ (by linarith [hlayout.front_nonneg, hlayout.front_lt])
  rear_lt := Int.emod_lt_of_pos _ (by linarith [hlayout.front_nonneg, hlayout.front_lt])
  rear_eq := by rw [hlayout.rear_eq, Int.emod_add_emod, add_assoc]

theorem pop (hlayout : RingLayout capacity size front rear) (hsome : size ≠ 0) :
    RingLayout capacity (size - 1) ((front + 1) % capacity) rear where
  size_nonneg := by have := hlayout.size_nonneg; omega
  size_le := by linarith [hlayout.size_le]
  front_nonneg := Int.emod_nonneg _ (by linarith [hlayout.front_nonneg, hlayout.front_lt])
  front_lt := Int.emod_lt_of_pos _ (by linarith [hlayout.front_nonneg, hlayout.front_lt])
  rear_nonneg := hlayout.rear_nonneg
  rear_lt := hlayout.rear_lt
  rear_eq := by
    rw [Int.emod_add_emod, hlayout.rear_eq]
    congr 1
    ring

end RingLayout

/-- The `count` cells from `front` on, in queue order. -/
def ringWindow {α : Type*} (cells : ℤ → α) (capacity front : ℤ) (count : ℕ) : List α :=
  (List.range count).map fun k : ℕ => cells ((front + k) % capacity)

section Window

variable {α : Type*} (cells : ℤ → α) {capacity front : ℤ} {count : ℕ}

theorem ringWindow_succ_last :
    ringWindow cells capacity front (count + 1) =
      ringWindow cells capacity front count ++ [cells ((front + count) % capacity)] := by
  simp [ringWindow, List.range_succ]

theorem ringWindow_succ_front (hnonneg : 0 ≤ front) (hlt : front < capacity) :
    ringWindow cells capacity front (count + 1) =
      cells front :: ringWindow cells capacity ((front + 1) % capacity) count := by
  rw [ringWindow, List.range_succ_eq_map, List.map_cons, List.map_map]
  congr 1
  · rw [Nat.cast_zero, add_zero, Int.emod_eq_of_lt hnonneg hlt]
  · apply List.map_congr_left
    intro k _
    change cells ((front + (k + 1 : ℕ)) % capacity) = cells (((front + 1) % capacity + k) % capacity)
    rw [Int.emod_add_emod]
    congr 2
    push_cast
    ring

/-- Writing the cell behind the window leaves the window as it is, while there
is room. -/
theorem ringWindow_update_rear (hroom : (count : ℤ) < capacity) (val : α) :
    ringWindow (Function.update cells ((front + count) % capacity) val) capacity front count =
      ringWindow cells capacity front count := by
  apply List.map_congr_left
  intro k hk
  have hlt : k < count := List.mem_range.mp hk
  apply Function.update_of_ne
  intro heq
  have hdvd : capacity ∣ (front + count) - (front + k) :=
    Int.ModEq.dvd heq
  have hpos : 0 < (front + count) - (front + k) := by omega
  have hle := Int.le_of_dvd hpos hdvd
  omega

theorem ringWindow_push (hroom : (count : ℤ) < capacity) (val : α) :
    ringWindow (Function.update cells ((front + count) % capacity) val) capacity front
      (count + 1) = ringWindow cells capacity front count ++ [val] := by
  rw [ringWindow_succ_last, ringWindow_update_rear cells hroom, Function.update_self]

end Window

end CppProjects
