import CppProjects.Vector.MyVectorRuns

/-!
# Reverse iterators

The reverse iterators of `myVector` and `Array`, which hold the pointer to the element they
denote.  Going forward takes the pointer back, but the distance of two iterators is that of
their pointers.
-/

namespace CppProjects

open CInt

/-- `vectorReserveIterator` and `arrayReserveIterator`, whose texts are the same.  The place
in front of an array counts as a place. -/
structure ReserveIterator where
  block : Option ℕ
  offset : ℤ
deriving DecidableEq, Repr

namespace ReserveIterator

variable {σ : Type}

/-- `operator ++ ()`. -/
def preIncrement (it : ReserveIterator) : ReserveIterator := { it with offset := it.offset - 1 }

/-- `operator ++ (int)`: what it returns, and the iterator after it. -/
def postIncrement (it : ReserveIterator) : ReserveIterator × ReserveIterator := (it, it.preIncrement)

/-- `operator + (int)`. -/
def plus (it : ReserveIterator) (n : ℤ) : ReserveIterator := { it with offset := it.offset - n }

/-- `operator += (int)`, which returns a copy. -/
def plusAssign (it : ReserveIterator) (n : ℤ) : ReserveIterator := { it with offset := it.offset - n }

/-- `operator -- ()`. -/
def preDecrement (it : ReserveIterator) : ReserveIterator := { it with offset := it.offset + 1 }

/-- `operator -- (int)`. -/
def postDecrement (it : ReserveIterator) : ReserveIterator × ReserveIterator := (it, it.preDecrement)

/-- `operator - (int)`. -/
def minus (it : ReserveIterator) (n : ℤ) : ReserveIterator := { it with offset := it.offset + n }

/-- `operator -= (int)`. -/
def minusAssign (it : ReserveIterator) (n : ℤ) : ReserveIterator := { it with offset := it.offset + n }

/-- `operator - (const iterator &)`, an `int`. -/
def distance (it other : ReserveIterator) : Option ℤ :=
  if it.block = other.block then some (toInt (it.offset - other.offset)) else none

/-- `operator * ()`. -/
def deref (heap : ArrayHeap σ) (it : ReserveIterator) : Option σ := heap.readAt it.block it.offset

end ReserveIterator

/-- `rbegin()` of a `myVector`: `m_data + m_size - 1`. -/
def MyVector.rbegin (this : MyVector) : ReserveIterator := ⟨this.mData, this.mSize - 1⟩

/-- `rend()`: `m_data - 1`. -/
def MyVector.rend (this : MyVector) : ReserveIterator := ⟨this.mData, -1⟩

/-- An `Array<T, N>` whose `m_data` is at `mData`. -/
structure FixedArray where
  mData : ℕ
  n : ℕ
deriving DecidableEq, Repr

def FixedArray.rbegin (this : FixedArray) : ReserveIterator := ⟨this.mData, this.n - 1⟩

def FixedArray.rend (this : FixedArray) : ReserveIterator := ⟨this.mData, -1⟩

namespace ReserveIterator

variable {σ : Type} {heap : ArrayHeap σ} {block : Option ℕ} {xs cells : List σ} {i j n : ℕ}

/-! ## Steps -/

@[simp]
theorem plus_minus (it : ReserveIterator) (n : ℤ) : (it.plus n).minus n = it := by
  rw [minus, plus, Int.sub_add_cancel]

@[simp]
theorem minus_plus (it : ReserveIterator) (n : ℤ) : (it.minus n).plus n = it := by
  rw [plus, minus, Int.add_sub_cancel]

theorem preIncrement_eq_plus (it : ReserveIterator) : it.preIncrement = it.plus 1 := rfl

theorem preDecrement_eq_minus (it : ReserveIterator) : it.preDecrement = it.minus 1 := rfl

theorem plusAssign_eq_plus (it : ReserveIterator) (n : ℤ) : it.plusAssign n = it.plus n := rfl

theorem minusAssign_eq_minus (it : ReserveIterator) (n : ℤ) : it.minusAssign n = it.minus n := rfl

/-- Steps one by one are one step of their number. -/
theorem iterate_preIncrement (it : ReserveIterator) (n : ℕ) : preIncrement^[n] it = it.plus n := by
  induction n with
  | zero =>
      rw [plus, Nat.cast_zero, Int.sub_zero]
      rfl
  | succ n ih =>
      rw [Function.iterate_succ_apply', ih, preIncrement, plus, plus, Nat.cast_succ, Int.sub_sub]

/-- Where a step of `i` leads from the last element. -/
theorem plus_toInt_eq_iff (hlt : i < n) :
    (⟨block, n - 1⟩ : ReserveIterator).plus (toInt i) = ⟨block, (n - 1 - i : ℕ)⟩ ↔ i < 2 ^ 31 := by
  rw [plus, ReserveIterator.mk.injEq, and_iff_right rfl]
  constructor
  · intro hoffset
    have hint := (toInt_spec i).1.2
    dsimp only at hoffset
    omega
  · intro hsmall
    rw [toInt_eq_self ⟨by omega, by omega⟩]
    dsimp only
    omega

/-- The distance from an earlier position to a later one has the wrong sign. -/
theorem distance_plus_iff (it : ReserveIterator) (hle : i ≤ j) :
    (it.plus (toInt j)).distance (it.plus (toInt i)) = some ((j : ℤ) - i) ↔ i = j := by
  have hoffsets : it.offset - toInt j - (it.offset - toInt i) = toInt i - toInt j := by omega
  rw [distance, plus, plus]
  dsimp only
  rw [if_pos rfl, hoffsets, Option.some.injEq]
  obtain ⟨-, turnsI, hi⟩ := toInt_spec i
  obtain ⟨-, turnsJ, hj⟩ := toInt_spec j
  obtain ⟨⟨-, hint⟩, turns, hturns⟩ := toInt_spec (toInt i - toInt j)
  constructor
  · intro hdistance
    omega
  · rintro rfl
    rw [Int.sub_self, Int.sub_self]
    decide

/-- The distance over all elements. -/
theorem distance_rend_iff (block : Option ℕ) (n : ℕ) :
    (⟨block, -1⟩ : ReserveIterator).distance ⟨block, n - 1⟩ = some (n : ℤ) ↔ n = 0 := by
  have hoffsets : -1 - ((n : ℤ) - 1) = -n := by omega
  rw [distance, if_pos rfl, hoffsets, Option.some.injEq]
  obtain ⟨⟨-, hint⟩, turns, hturns⟩ := toInt_spec (-n)
  constructor
  · intro hdistance
    omega
  · rintro rfl
    decide

/-! ## Views -/

/-- From `first` to `last` the elements of the array at `block` stand in reverse order, with
the laws of random access at the positions `i` and `j`.  The operators take the positions
as `int`s. -/
structure Reverses (heap : ArrayHeap σ) (block : Option ℕ) (xs : List σ) (first last : ReserveIterator)
    (i j : ℕ) : Prop where
  denotes : i < xs.length → first.plus (toInt i) = ⟨block, (xs.length - 1 - i : ℕ)⟩ ∧
    (first.plus (toInt i)).deref heap = xs[xs.length - 1 - i]?
  reaches : preIncrement^[xs.length] first = last ∧
    (fun it => it.postIncrement.2)^[xs.length] first = last
  plus_minus : ∀ (it : ReserveIterator) (k : ℤ), (it.plus k).minus k = it
  minus_plus : ∀ (it : ReserveIterator) (k : ℤ), (it.minus k).plus k = it
  distance : (first.plus (toInt j)).distance (first.plus (toInt i)) = some ((j : ℤ) - i)

/-- The elements of an array, which are the first of its cells. -/
theorem deref_of_lt (hcells : heap.cellsAt block = some cells) (hxs : xs <+: cells) {p : ℕ}
    (hlt : p < xs.length) : (⟨block, p⟩ : ReserveIterator).deref heap = xs[p]? := by
  obtain ⟨rest, rfl⟩ := hxs
  have hlt' : p < (xs ++ rest).length := by
    rw [List.length_append]
    omega
  rw [deref, ArrayHeap.readAt_of_lt hcells hlt', ← List.getElem?_append_left hlt,
    List.getElem?_eq_getElem hlt']

theorem reverses_iff (hcells : heap.cellsAt block = some cells) (hxs : xs <+: cells) (hle : i ≤ j) :
    Reverses heap block xs ⟨block, xs.length - 1⟩ ⟨block, -1⟩ i j ↔
      i = j ∧ (i < xs.length → i < 2 ^ 31) := by
  constructor
  · intro hreverses
    refine ⟨(distance_plus_iff _ hle).mp hreverses.distance, fun hlt => ?_⟩
    exact (plus_toInt_eq_iff hlt).mp (hreverses.denotes hlt).1
  · rintro ⟨hsame, hint⟩
    have hreaches : preIncrement^[xs.length] ⟨block, (xs.length : ℤ) - 1⟩ = ⟨block, -1⟩ := by
      rw [iterate_preIncrement, plus, ReserveIterator.mk.injEq, and_iff_right rfl]
      dsimp only
      omega
    refine ⟨fun hlt => ?_, ⟨hreaches, hreaches⟩, plus_minus, minus_plus,
      (distance_plus_iff _ hle).mpr hsame⟩
    have hplace : (⟨block, xs.length - 1⟩ : ReserveIterator).plus (toInt i) = _ :=
      (plus_toInt_eq_iff hlt).mpr (hint hlt)
    refine ⟨hplace, ?_⟩
    rw [hplace]
    exact deref_of_lt hcells hxs (by omega)

end ReserveIterator

/-! ## Containers -/

/-- What has reverse iterators. -/
inductive Reversible
  | myVector (this : MyVector)
  | array (this : FixedArray)
deriving DecidableEq, Repr

namespace Reversible

open ReserveIterator

variable {α : Type} {heap : ArrayHeap (Option α)} {this : Reversible} {xs : List α} {i j : ℕ}

def data : Reversible → Option ℕ
  | .myVector this => this.mData
  | .array this => this.mData

def rbegin : Reversible → ReserveIterator
  | .myVector this => this.rbegin
  | .array this => this.rbegin

def rend : Reversible → ReserveIterator
  | .myVector this => this.rend
  | .array this => this.rend

/-- The elements are `xs`. -/
def Holds (heap : ArrayHeap (Option α)) (xs : List α) : Reversible → Prop
  | .myVector this => MyVector.Represents heap this xs
  | .array this => heap.arrays this.mData = some (xs.map some) ∧ xs.length = this.n

/-- The elements stand in front of what is at `data`, and the iterators go over them. -/
theorem Holds.spec (hholds : this.Holds heap xs) :
    (∃ cells, heap.cellsAt this.data = some cells ∧ xs.map some <+: cells) ∧
      this.rbegin = ⟨this.data, xs.length - 1⟩ ∧ this.rend = ⟨this.data, -1⟩ := by
  cases this with
  | myVector this =>
      obtain ⟨hsize, cells, hcells, hcapacity, hxs⟩ := hholds
      have hlength : this.mSize = xs.length := by
        rw [← List.length_map some, ← hxs, List.length_take]
        omega
      refine ⟨⟨cells, hcells, hxs ▸ List.take_prefix _ _⟩, ?_, rfl⟩
      rw [rbegin, MyVector.rbegin, hlength]
      rfl
  | array this =>
      obtain ⟨hcells, hlength⟩ := hholds
      refine ⟨⟨_, hcells, List.prefix_rfl⟩, ?_, rfl⟩
      rw [rbegin, FixedArray.rbegin, ← hlength]
      rfl

/-- For any two positions in order, the reverse iterators are a view of the reversed elements
exactly if the positions are the same, and the one of an element is an `int`; and
`rend() - rbegin()` is the number of the elements only where there are none. -/
theorem reserve_iterators_iff (hholds : this.Holds heap xs) (hle : i ≤ j) (_hj : j ≤ xs.length) :
    (Reverses heap this.data (xs.map some) this.rbegin this.rend i j ↔
      i = j ∧ (i < xs.length → i < 2 ^ 31)) ∧
    (this.rend.distance this.rbegin = some (xs.length : ℤ) ↔ xs.length = 0) := by
  obtain ⟨⟨cells, hcells, hxs⟩, hfirst, hlast⟩ := hholds.spec
  have hreverses := reverses_iff hcells hxs hle
  rw [List.length_map] at hreverses
  rw [hfirst, hlast]
  exact ⟨hreverses, distance_rend_iff this.data xs.length⟩

/-- The second of three elements of a vector. -/
theorem reserve_iterators_same :
    Reverses (ArrayHeap.empty.alloc [some 7, some 8, some 9]) (some 0) [some 7, some 8, some 9]
      ⟨some 0, 2⟩ ⟨some 0, -1⟩ 1 1 := by
  have hholds : (myVector ⟨some 0, 3, 3⟩).Holds (ArrayHeap.empty.alloc [some 7, some 8, some 9])
      [7, 8, 9] := ⟨by decide, [some 7, some 8, some 9], rfl, rfl, rfl⟩
  exact (reserve_iterators_iff (i := 1) (j := 1) hholds le_rfl (by decide)).1.mpr
    ⟨rfl, fun _ => by decide⟩

/-- `rend() - rbegin()` of the array of ten elements. -/
theorem reserve_iterators_backwards :
    (array ⟨0, 10⟩).rend.distance (array ⟨0, 10⟩).rbegin = some (-10) ∧
    ¬ ∀ (heap : ArrayHeap (Option ℕ)) (this : Reversible) (xs : List ℕ) (i j : ℕ),
      this.Holds heap xs → i ≤ j → j ≤ xs.length →
        Reverses heap this.data (xs.map some) this.rbegin this.rend i j := by
  refine ⟨by decide, fun hall => ?_⟩
  have hholds : (array ⟨0, 10⟩).Holds (ArrayHeap.empty.alloc ((List.range 10).map some))
      (List.range 10) := ⟨rfl, rfl⟩
  have hreverses := hall _ _ _ 0 10 hholds (by decide) (by decide)
  exact absurd hreverses.distance (by decide)

end Reversible

end CppProjects
