import CppProjects.Core.Overwrite

/-!
# Heaps of arrays

Arrays from `new T[n]` at numbered addresses.  An access outside of an array, or
to one that was released, has no result.
-/

namespace CppProjects

/-- Arrays by address; no address from `next` on is in use. -/
structure ArrayHeap (σ : Type) where
  arrays : ℕ → Option (List σ)
  next : ℕ
  fresh : ∀ addr, next ≤ addr → arrays addr = none

namespace ArrayHeap

variable {σ : Type}

def empty : ArrayHeap σ := ⟨fun _ => none, 0, fun _ _ => rfl⟩

/-- A new array, at the address `next`. -/
def alloc (heap : ArrayHeap σ) (cells : List σ) : ArrayHeap σ where
  arrays := Function.update heap.arrays heap.next (some cells)
  next := heap.next + 1
  fresh := by
    intro addr haddr
    rw [Function.update_of_ne (by omega)]
    exact heap.fresh addr (by omega)

def free (heap : ArrayHeap σ) (addr : ℕ) : ArrayHeap σ where
  arrays := Function.update heap.arrays addr none
  next := heap.next
  fresh := by
    intro other hother
    by_cases heq : other = addr
    · rw [heq, Function.update_self]
    · rw [Function.update_of_ne heq]
      exact heap.fresh other hother

/-- Other contents for an array that is in use. -/
def replace (heap : ArrayHeap σ) (addr : ℕ) (cells : List σ) : ArrayHeap σ where
  arrays := if (heap.arrays addr).isSome then Function.update heap.arrays addr (some cells)
    else heap.arrays
  next := heap.next
  fresh := by
    intro other hother
    split_ifs with hused
    · have hne : other ≠ addr := by
        rintro rfl
        rw [heap.fresh other hother] at hused
        cases hused
      rw [Function.update_of_ne hne]
      exact heap.fresh other hother
    · exact heap.fresh other hother

/-- `array[index]`. -/
def read (heap : ArrayHeap σ) (addr : ℕ) (index : ℤ) : Option σ :=
  (heap.arrays addr).bind fun cells => if 0 ≤ index then cells[index.toNat]? else none

/-- `array[index] = value`. -/
def write (heap : ArrayHeap σ) (addr : ℕ) (index : ℤ) (value : σ) : Option (ArrayHeap σ) :=
  (heap.arrays addr).bind fun cells =>
    if 0 ≤ index ∧ index < cells.length then some (heap.replace addr (cells.set index.toNat value))
    else none

variable {heap : ArrayHeap σ} {addr other : ℕ} {cells cells' : List σ}

@[ext]
theorem ext {heap heap' : ArrayHeap σ} (harrays : heap.arrays = heap'.arrays)
    (hnext : heap.next = heap'.next) : heap = heap' := by
  cases heap
  cases heap'
  cases harrays
  cases hnext
  rfl

theorem lt_next (haddr : heap.arrays addr = some cells) : addr < heap.next := by
  by_contra hle
  rw [heap.fresh addr (by omega)] at haddr
  cases haddr

@[simp]
theorem alloc_arrays_next (heap : ArrayHeap σ) (cells : List σ) :
    (heap.alloc cells).arrays heap.next = some cells := Function.update_self ..

theorem alloc_arrays_of_ne (hne : addr ≠ heap.next) :
    (heap.alloc cells).arrays addr = heap.arrays addr := Function.update_of_ne hne ..

theorem alloc_arrays_of_some (haddr : heap.arrays addr = some cells) :
    (heap.alloc cells').arrays addr = some cells := by
  rw [alloc_arrays_of_ne (lt_next haddr).ne, haddr]

theorem free_arrays_of_ne (hne : other ≠ addr) :
    (heap.free addr).arrays other = heap.arrays other := Function.update_of_ne hne ..

theorem replace_arrays (haddr : heap.arrays addr = some cells) :
    (heap.replace addr cells').arrays addr = some cells' := by
  simp [replace, haddr]

theorem replace_arrays_of_ne (hne : other ≠ addr) :
    (heap.replace addr cells).arrays other = heap.arrays other := by
  rw [replace]
  dsimp only
  split_ifs
  · exact Function.update_of_ne hne ..
  · rfl

@[simp]
theorem replace_replace : (heap.replace addr cells).replace addr cells' =
    heap.replace addr cells' := by
  by_cases hused : (heap.arrays addr).isSome
  · apply ext
    · funext other
      simp only [replace, hused, if_true, Function.update_self, Option.isSome_some,
        Function.update_idem]
    · rfl
  · apply ext
    · simp [replace, hused]
    · rfl

theorem replace_self (haddr : heap.arrays addr = some cells) : heap.replace addr cells = heap := by
  apply ext
  · funext other
    by_cases heq : other = addr
    · rw [heq, replace_arrays haddr, haddr]
    · exact replace_arrays_of_ne heq
  · rfl

@[simp]
theorem alloc_replace (heap : ArrayHeap σ) (cells cells' : List σ) :
    (heap.alloc cells).replace heap.next cells' = heap.alloc cells' := by
  apply ext
  · funext other
    simp [replace, alloc]
  · rfl

/-! ## Pointers that may be null -/

/-- The cells behind a pointer; there are none behind a null pointer. -/
def cellsAt (heap : ArrayHeap σ) : Option ℕ → Option (List σ)
  | none => some []
  | some addr => heap.arrays addr

def replaceAt (heap : ArrayHeap σ) (data : Option ℕ) (cells : List σ) : ArrayHeap σ :=
  match data with
  | none => heap
  | some addr => heap.replace addr cells

def freeAt (heap : ArrayHeap σ) : Option ℕ → ArrayHeap σ
  | none => heap
  | some addr => heap.free addr

variable {data : Option ℕ}

@[simp]
theorem replaceAt_replaceAt :
    (heap.replaceAt data cells).replaceAt data cells' = heap.replaceAt data cells' := by
  cases data with
  | none => rfl
  | some addr => exact replace_replace

theorem replaceAt_self (hdata : heap.cellsAt data = some cells) :
    heap.replaceAt data cells = heap := by
  cases data with
  | none => rfl
  | some addr => exact replace_self hdata

theorem cellsAt_replaceAt (hdata : heap.cellsAt data = some cells)
    (hlength : cells'.length = cells.length) :
    (heap.replaceAt data cells').cellsAt data = some cells' := by
  cases data with
  | none =>
      obtain rfl : [] = cells := Option.some.inj hdata
      obtain rfl : cells' = [] := List.length_eq_zero_iff.mp hlength
      rfl
  | some addr => exact replace_arrays hdata

/-- `*data` in a program: the pointer is not null and the index inside. -/
def readAt (heap : ArrayHeap σ) (data : Option ℕ) (index : ℤ) : Option σ :=
  data.bind fun addr => heap.read addr index

def writeAt (heap : ArrayHeap σ) (data : Option ℕ) (index : ℤ) (value : σ) :
    Option (ArrayHeap σ) :=
  data.bind fun addr => heap.write addr index value

/-- `memmove(data + target, data + source, count * sizeof(T))`.  Every cell is read
before the first one is written; to move nothing is to do nothing. -/
def moveAt (heap : ArrayHeap σ) (data : Option ℕ) (target source : ℤ) (count : ℕ) :
    Option (ArrayHeap σ) :=
  if count = 0 then some heap
  else (heap.cellsAt data).bind fun cells =>
    if 0 ≤ target ∧ target + count ≤ cells.length ∧ 0 ≤ source ∧ source + count ≤ cells.length then
      some (heap.replaceAt data
        (overwrite cells target.toNat ((cells.drop source.toNat).take count)))
    else none

theorem moveAt_of_le (hdata : heap.cellsAt data = some cells) {target source count : ℕ}
    (htarget : target + count ≤ cells.length) (hsource : source + count ≤ cells.length) :
    heap.moveAt data target source count =
      some (heap.replaceAt data (overwrite cells target ((cells.drop source).take count))) := by
  rw [moveAt]
  split_ifs with hcount
  · rw [hcount, List.take_zero, overwrite_nil, replaceAt_self hdata]
  · rw [hdata, Option.bind_some, if_pos (by omega), Int.toNat_natCast, Int.toNat_natCast]

theorem readAt_of_lt (hdata : heap.cellsAt data = some cells) {index : ℕ}
    (hindex : index < cells.length) : heap.readAt data index = some cells[index] := by
  cases data with
  | none =>
      obtain rfl : [] = cells := Option.some.inj hdata
      cases hindex
  | some addr => simp [readAt, read, show heap.arrays addr = some cells from hdata, hindex]

theorem writeAt_of_lt (hdata : heap.cellsAt data = some cells) {index : ℕ}
    (hindex : index < cells.length) (value : σ) :
    heap.writeAt data index value = some (heap.replaceAt data (cells.set index value)) := by
  cases data with
  | none =>
      obtain rfl : [] = cells := Option.some.inj hdata
      cases hindex
  | some addr =>
      simp [writeAt, write, replaceAt, show heap.arrays addr = some cells from hdata, hindex]

/-- What is read after a write. -/
theorem readAt_of_writeAt {source : Option ℕ} {index place : ℤ} {value : σ}
    (hwrite : heap.writeAt data index value = some heap') :
    heap'.readAt source place =
      if source = data ∧ place = index then some value else heap.readAt source place := by
  obtain ⟨addr, hdata, hwritten⟩ := Option.bind_eq_some_iff.mp hwrite
  obtain ⟨cells, haddr, hset⟩ := Option.bind_eq_some_iff.mp hwritten
  subst hdata
  split_ifs at hset with hindex
  obtain rfl := Option.some.inj hset
  cases source with
  | none => simp [readAt]
  | some other =>
      by_cases hother : other = addr
      · subst hother
        rw [readAt, Option.bind_some, read, replace_arrays haddr, Option.bind_some, readAt,
          Option.bind_some, read, haddr, Option.bind_some, List.getElem?_set]
        by_cases hplace : place = index
        · subst hplace
          rw [if_pos hindex.1, if_pos rfl, if_pos (by omega), if_pos ⟨rfl, rfl⟩]
        · rw [if_neg (c := some other = some other ∧ place = index) fun heq => hplace heq.2]
          by_cases hnonneg : 0 ≤ place
          · rw [if_pos hnonneg, if_pos hnonneg, if_neg (by omega)]
          · rw [if_neg hnonneg, if_neg hnonneg]
      · rw [readAt, Option.bind_some, read, replace_arrays_of_ne hother, ← read,
          if_neg (by simp [hother])]
        rfl

theorem replaceAt_arrays_of_ne (hne : data ≠ some addr) :
    (heap.replaceAt data cells).arrays addr = heap.arrays addr := by
  cases data with
  | none => rfl
  | some replaced => exact replace_arrays_of_ne fun heq => hne (by rw [heq])

/-- Two arrays may be written in either order. -/
theorem replace_replaceAt (hne : data ≠ some addr) :
    (heap.replaceAt data cells).replace addr cells' =
      (heap.replace addr cells').replaceAt data cells := by
  cases data with
  | none => rfl
  | some written =>
      have hother : written ≠ addr := fun heq => hne (by rw [heq])
      apply ext
      · change (if ((heap.replace written cells).arrays addr).isSome then
            Function.update (heap.replace written cells).arrays addr (some cells')
            else (heap.replace written cells).arrays) =
          if ((heap.replace addr cells').arrays written).isSome then
            Function.update (heap.replace addr cells').arrays written (some cells)
            else (heap.replace addr cells').arrays
        rw [replace_arrays_of_ne hother.symm, replace_arrays_of_ne hother]
        simp only [replace]
        split_ifs
        · exact Function.update_comm hother ..
        · rfl
        · rfl
        · rfl
      · rfl

/-- What was written to an array goes with it. -/
theorem freeAt_replaceAt : (heap.replaceAt data cells).freeAt data = heap.freeAt data := by
  cases data with
  | none => rfl
  | some addr =>
      apply ext
      · simp only [replaceAt, freeAt, free, replace]
        split_ifs
        · exact Function.update_idem ..
        · rfl
      · rfl

theorem freeAt_arrays_self : (heap.freeAt (some addr)).arrays addr = none :=
  Function.update_self ..

theorem freeAt_arrays_of_ne (hne : data ≠ some addr) :
    (heap.freeAt data).arrays addr = heap.arrays addr := by
  cases data with
  | none => rfl
  | some released => exact free_arrays_of_ne (fun heq => hne (by rw [heq]))

theorem isSome_freeAt_iff :
    ((heap.freeAt data).arrays addr).isSome ↔ data ≠ some addr ∧ (heap.arrays addr).isSome := by
  by_cases hdata : data = some addr
  · rw [hdata, freeAt_arrays_self]
    simp
  · rw [freeAt_arrays_of_ne hdata, and_iff_right hdata]

/-- Releasing one array and writing another may be done in either order. -/
theorem freeAt_replace (hne : data ≠ some addr) :
    (heap.freeAt data).replace addr cells = (heap.replace addr cells).freeAt data := by
  cases data with
  | none => rfl
  | some released =>
      have hother : released ≠ addr := fun heq => hne (by rw [heq])
      apply ext
      · change (if ((heap.free released).arrays addr).isSome then _ else _) = _
        rw [free_arrays_of_ne hother.symm]
        simp only [freeAt, free, replace]
        split_ifs
        · exact Function.update_comm hother ..
        · rfl
      · rfl

theorem freeAt_alloc (hne : data ≠ some heap.next) :
    (heap.freeAt data).alloc cells = (heap.alloc cells).freeAt data := by
  cases data with
  | none => rfl
  | some released =>
      have hother : heap.next ≠ released := fun heq => hne (by rw [heq])
      apply ext
      · exact Function.update_comm hother.symm ..
      · rfl

/-! ## What stays as it was -/

/-- Every array but `own` is as it was. -/
def Keeps (own : Option ℕ) (heap heap' : ArrayHeap σ) : Prop :=
  ∀ addr cells, own ≠ some addr → heap.arrays addr = some cells → heap'.arrays addr = some cells

namespace Keeps

variable {own : Option ℕ} {heap' : ArrayHeap σ}

theorem refl (own : Option ℕ) (heap : ArrayHeap σ) : Keeps own heap heap := fun _ _ _ h => h

theorem trans {heap'' : ArrayHeap σ} (h : Keeps own heap heap') (h' : Keeps own heap' heap'') :
    Keeps own heap heap'' :=
  fun addr cells hother haddr => h' addr cells hother (h addr cells hother haddr)

theorem alloc (own : Option ℕ) (heap : ArrayHeap σ) (cells : List σ) :
    Keeps own heap (heap.alloc cells) :=
  fun _ _ _ haddr => alloc_arrays_of_some haddr

theorem replaceAt (own : Option ℕ) (heap : ArrayHeap σ) (cells : List σ) :
    Keeps own heap (heap.replaceAt own cells) := by
  cases own with
  | none => exact refl none heap
  | some addr =>
      intro other kept hother haddr
      exact (replace_arrays_of_ne (fun heq => hother (by rw [heq]))).trans haddr

theorem freeAt (own : Option ℕ) (heap : ArrayHeap σ) : Keeps own heap (heap.freeAt own) := by
  cases own with
  | none => exact refl none heap
  | some addr =>
      intro other kept hother haddr
      exact (free_arrays_of_ne (fun heq => hother (by rw [heq]))).trans haddr

theorem cellsAt (hkeeps : Keeps own heap heap') {data : Option ℕ} {cells : List σ}
    (hother : data ≠ none → own ≠ data) (hdata : heap.cellsAt data = some cells) :
    heap'.cellsAt data = some cells := by
  cases data with
  | none => exact hdata
  | some addr => exact hkeeps addr cells (hother (by simp)) hdata

end Keeps

end ArrayHeap

end CppProjects
