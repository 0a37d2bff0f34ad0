import CppProjects.Core.Overwrite
import CppProjects.Vector.MyVector

/-!
# Rules for the steps of `myVector`

What each memory access and each loop of the operations returns, and in which
store.
-/

namespace CppProjects

open CInt Program

namespace MyVector

variable {ι α : Type}

/-! ## Stores -/

namespace Store

/-- The store with other contents for one array. -/
def withCells (s : Store ι α) (data : Option ℕ) (cells : List (Option α)) : Store ι α :=
  { s with heap := s.heap.replaceAt data cells }

def withVector [DecidableEq ι] (s : Store ι α) (v : ι) (this : MyVector) : Store ι α :=
  { s with vectors := Function.update s.vectors v this }

/-- The store with a new array at `s.heap.next`. -/
def withNew (s : Store ι α) (cells : List (Option α)) : Store ι α :=
  { s with heap := s.heap.alloc cells }

def without (s : Store ι α) (data : Option ℕ) : Store ι α :=
  { s with heap := s.heap.freeAt data }

variable (s : Store ι α) {v : ι} {this that : MyVector} {data : Option ℕ}
  {cells cells' : List (Option α)}

@[simp]
theorem withVector_withVector [DecidableEq ι] :
    (s.withVector v this).withVector v that = s.withVector v that := by
  simp [withVector]

@[simp]
theorem vectors_withVector [DecidableEq ι] : (s.withVector v this).vectors v = this :=
  Function.update_self ..

@[simp]
theorem withVector_eq_self [DecidableEq ι] : s.withVector v (s.vectors v) = s := by
  simp [withVector]

@[simp]
theorem withCells_withCells :
    (s.withCells data cells).withCells data cells' = s.withCells data cells' := by
  simp [withCells]

@[simp]
theorem withNew_withCells :
    (s.withNew cells).withCells (some s.heap.next) cells' = s.withNew cells' := by
  simp [withCells, withNew, ArrayHeap.replaceAt]

@[simp]
theorem next_without : (s.without data).heap.next = s.heap.next := by
  cases data <;> rfl

end Store

variable {s s' : Store ι α} {v : ι} {data : Option ℕ} {cells : List (Option α)}

/-! ## Memory -/

theorem returns_self {this : MyVector} (hthis : s.vectors v = this) :
    Returns (self v) s this s := by
  rw [← hthis]
  rfl

theorem returns_update [DecidableEq ι] {this : MyVector} (hthis : s.vectors v = this)
    (f : MyVector → MyVector) : Returns (update v f) s () (s.withVector v (f this)) := by
  rw [← hthis]
  rfl

theorem returns_newArray (hmemory : s.refuses s.heap.next = false) (n : ℕ) :
    Returns (newArray n) s s.heap.next (s.withNew (List.replicate n none)) := by
  refine (returns_get s).bind ?_
  rw [hmemory]
  rfl

theorem returns_load (hdata : s.heap.cellsAt data = some cells) {i : ℕ}
    (hindex : i < cells.length) : Returns (load data i) s cells[i] s :=
  (returns_get s).bind (returns_defined (ArrayHeap.readAt_of_lt hdata hindex) s)

theorem returns_store (hdata : s.heap.cellsAt data = some cells) {i : ℕ}
    (hindex : i < cells.length) (value : Option α) :
    Returns (store data i value) s () (s.withCells data (cells.set i value)) := by
  refine (returns_get s).bind ?_
  exact (returns_defined (ArrayHeap.writeAt_of_lt hdata hindex value) s).bind rfl

theorem returns_release [DecidableEq ι] {this : MyVector} (hthis : s.vectors v = this)
    (hdata : s.heap.cellsAt this.mData = some cells) :
    Returns (release v) s ()
      ((s.without this.mData).withVector v { this with mData := none }) := by
  refine (returns_self hthis).bind ?_
  obtain ⟨data, size, capacity⟩ := this
  cases data with
  | none =>
      have hsame : s.withVector v ⟨none, size, capacity⟩ = s := by
        rw [← hthis]
        simp [Store.withVector]
      change Returns (pure ()) s () (s.withVector v ⟨none, size, capacity⟩)
      rw [hsame]
      exact returns_pure () s
  | some addr =>
      have hused : (s.heap.arrays addr).isSome :=
        Option.isSome_of_eq_some (show s.heap.arrays addr = some cells from hdata)
      have hfree : Returns (deleteArray addr) s () (s.without (some addr)) := by
        refine (returns_get s).bind ?_
        rw [if_pos hused]
        rfl
      have hthis' : (s.without (some addr)).vectors v = ⟨some addr, size, capacity⟩ := hthis
      exact hfree.bind (returns_update hthis' _)

/-- `discard` of a vector that has a buffer. -/
theorem returns_discard_some [DecidableEq ι] {this : MyVector} (hthis : s.vectors v = this)
    {addr : ℕ} (hdata : this.mData = some addr) (hcells : s.heap.arrays addr = some cells) :
    Returns (discard v) s () ((s.without (some addr)).withVector v ⟨none, 0, 0⟩) := by
  have hbuffer : s.heap.cellsAt this.mData = some cells := by rwa [hdata]
  have hrelease := returns_release hthis hbuffer
  have hempty : ((s.without this.mData).withVector v { this with mData := none }).vectors v =
    { this with mData := none } := Store.vectors_withVector _
  have hreset := returns_update hempty fun this => { this with mSize := 0, mCapacity := 0 }
  rw [Store.withVector_withVector, hdata] at hreset
  rw [hdata] at hrelease
  refine (returns_self hthis).bind ?_
  rw [hdata]
  exact hrelease.bind hreset

/-! ## Arguments -/

/-- An argument that has the value `x` as long as no array but `own` changes. -/
inductive Arg.Denotes (heap : ArrayHeap (Option α)) (own : Option ℕ) (x : α) : Arg α → Prop
  | temp : Denotes heap own x (.temp x)
  | slot {addr i : ℕ} {cells : List (Option α)} (hother : own ≠ some addr)
      (haddr : heap.arrays addr = some cells) (hget : cells[i]? = some (some x)) :
      Denotes heap own x (.slot (some addr) i)

variable {own : Option ℕ} {heap heap' : ArrayHeap (Option α)} {x : α} {value : Arg α}

theorem Arg.Denotes.keeps (hvalue : Arg.Denotes heap own x value)
    (hkeeps : ArrayHeap.Keeps own heap heap') : Arg.Denotes heap' own x value := by
  cases hvalue with
  | temp => exact .temp
  | slot hother haddr hget => exact .slot hother (hkeeps _ _ hother haddr) hget

/-- A new array is none that an argument refers to. -/
theorem Arg.Denotes.alloc (hvalue : Arg.Denotes heap own x value) (cells : List (Option α)) :
    Arg.Denotes (heap.alloc cells) (some heap.next) x value := by
  cases hvalue with
  | temp => exact .temp
  | slot hother haddr hget =>
      refine .slot ?_ (ArrayHeap.alloc_arrays_of_some haddr) hget
      intro heq
      exact absurd (ArrayHeap.lt_next haddr) (by simp [Option.some.inj heq])

theorem Arg.Denotes.returns (hvalue : Arg.Denotes s.heap own x value) :
    Returns value.get s (some x) s := by
  cases hvalue with
  | temp => exact returns_pure _ s
  | @slot addr i cells hother haddr hget =>
      obtain ⟨hlt, hget⟩ := List.getElem?_eq_some_iff.mp hget
      rw [← hget]
      have hdata : s.heap.cellsAt (some addr) = some cells := haddr
      exact returns_load hdata hlt

/-! ## Loops -/

/-- A loop that writes one cell after another. -/
theorem returns_forUp_write {body : ℤ → M ι α Unit} {start : ℤ} {off : ℕ}
    {xs : List (Option α)} (hdata : s.heap.cellsAt data = some cells)
    (hfits : off + xs.length ≤ cells.length) (hlow : 0 ≤ start)
    (hhigh : start + xs.length < 2 ^ 31)
    (hbody : ∀ k (hk : k < xs.length) (t : Store ι α),
      t = s.withCells data (overwrite cells off (xs.take k)) →
      t.heap.cellsAt data = some (overwrite cells off (xs.take k)) →
      Returns (body (start + k)) t () (t.withCells data
        ((overwrite cells off (xs.take k)).set (off + k) xs[k]))) :
    Returns (forUp body start xs.length) s () (s.withCells data (overwrite cells off xs)) := by
  have hloop : Returns (forUp body start xs.length) _ () _ := returns_forUp
    (fun k => s.withCells data (overwrite cells off (xs.take k))) hlow hhigh ?_
  · have hstart : s.withCells data cells = s := by
      rw [Store.withCells, ArrayHeap.replaceAt_self hdata]
    rw [List.take_zero, overwrite_nil, hstart, List.take_length] at hloop
    exact hloop
  · intro k hk
    have hlength : (xs.take k).length = k := by
      rw [List.length_take]
      omega
    have hset : (overwrite cells off (xs.take k)).set (off + k) xs[k] =
        overwrite cells off (xs.take (k + 1)) := by
      have hlast : (overwrite cells off (xs.take k)).set (off + (xs.take k).length) xs[k] = _ :=
        overwrite_set_last (by omega)
      rw [hlength] at hlast
      rw [hlast, List.take_add_one, List.getElem?_eq_getElem hk, Option.toList_some]
    have hstep := hbody k hk _ rfl (ArrayHeap.cellsAt_replaceAt hdata
      (length_overwrite (by omega)))
    rwa [hset, Store.withCells_withCells] at hstep

/-- `data[i] = value` for `n` indices from `off` on. -/
theorem returns_fill (hdata : s.heap.cellsAt data = some cells)
    (hvalue : Arg.Denotes s.heap data x value) (off n : ℕ) (hfits : off + n ≤ cells.length)
    (hsmall : off + n < 2 ^ 31) :
    Returns (forUp (fun i => do store data i (← value.get)) off n) s ()
      (s.withCells data (overwrite cells off (List.replicate n (some x)))) := by
  have hloop : Returns (forUp (fun i => do store data i (← value.get)) off
      (List.replicate n (some x)).length) s ()
      (s.withCells data (overwrite cells off (List.replicate n (some x)))) := by
    refine returns_forUp_write hdata (by simpa using hfits) (by omega)
      (by simpa using by exact_mod_cast hsmall) ?_
    rintro k hk t rfl ht
    rw [List.length_replicate] at hk
    have hvalue' := hvalue.keeps (ArrayHeap.Keeps.replaceAt data s.heap
      (overwrite cells off ((List.replicate n (some x)).take k)))
    refine hvalue'.returns.bind ?_
    rw [List.getElem_replicate, ← Nat.cast_add]
    exact returns_store ht (by rw [length_overwrite (by simp; omega)]; omega) _
  rwa [List.length_replicate] at hloop

/-- The same with the offset added to the index. -/
theorem returns_fill_shifted (hdata : s.heap.cellsAt data = some cells)
    (hvalue : Arg.Denotes s.heap data x value) (off n : ℕ) (hfits : off + n ≤ cells.length)
    (hsmall : off + n < 2 ^ 31) :
    Returns (forUp (fun i => do
        let target ← intExpr (i + off)
        store data target (← value.get)) 0 n) s ()
      (s.withCells data (overwrite cells off (List.replicate n (some x)))) := by
  have hloop : Returns (forUp (fun i => do
        let target ← intExpr (i + off)
        store data target (← value.get)) 0 (List.replicate n (some x)).length) s ()
      (s.withCells data (overwrite cells off (List.replicate n (some x)))) := by
    refine returns_forUp_write hdata (by simpa using hfits) le_rfl
      (by rw [List.length_replicate]; omega) ?_
    rintro k hk t rfl ht
    rw [List.length_replicate] at hk
    have hvalue' := hvalue.keeps (ArrayHeap.Keeps.replaceAt data s.heap
      (overwrite cells off ((List.replicate n (some x)).take k)))
    refine (returns_intExpr ⟨by omega, by omega⟩ _).bind (hvalue'.returns.bind ?_)
    rw [List.getElem_replicate, zero_add, ← Nat.cast_add, add_comm k off]
    exact returns_store ht (by rw [length_overwrite (by simp; omega)]; omega) _
  rwa [List.length_replicate] at hloop

variable {source : Option ℕ} {old : List (Option α)}

/-- `data[i] = source[i]` for the first `n` indices. -/
theorem returns_copy (hdata : s.heap.cellsAt data = some cells)
    (hsource : s.heap.cellsAt source = some old) (hother : source ≠ none → data ≠ source) {n : ℕ}
    (hfits : n ≤ cells.length) (hsmall : n < 2 ^ 31) (hold : n ≤ old.length) :
    Returns (forUp (fun i => do store data i (← load source i)) 0 n) s ()
      (s.withCells data (overwrite cells 0 (old.take n))) := by
  have hlength : (old.take n).length = n := by
    rw [List.length_take]
    omega
  have hloop : Returns (forUp (fun i => do store data i (← load source i)) 0
      (old.take n).length) s () (s.withCells data (overwrite cells 0 (old.take n))) := by
    refine returns_forUp_write hdata (by omega) le_rfl (by omega) ?_
    rintro k hk t rfl ht
    rw [hlength] at hk
    have hkept := (ArrayHeap.Keeps.replaceAt data s.heap
      (overwrite cells 0 ((old.take n).take k))).cellsAt hother hsource
    rw [zero_add]
    refine (returns_load hkept (by omega)).bind ?_
    rw [List.getElem_take, zero_add]
    exact returns_store ht (by rw [length_overwrite (by simp; omega)]; omega) _
  rwa [hlength] at hloop

/-- `data[i + n] = source[i]` for the indices from `first` to `last`. -/
theorem returns_copy_shifted (hdata : s.heap.cellsAt data = some cells)
    (hsource : s.heap.cellsAt source = some old) (hother : source ≠ none → data ≠ source)
    {first last n : ℕ} (hrange : first ≤ last) (hfits : last + n ≤ cells.length)
    (hsmall : last + n < 2 ^ 31) (hold : last ≤ old.length) :
    Returns (forUp (fun i => do
        let target ← intExpr (i + n)
        store data target (← load source i)) first (last - first)) s ()
      (s.withCells data (overwrite cells (first + n) ((old.drop first).take (last - first)))) := by
  have hlength : ((old.drop first).take (last - first)).length = last - first := by
    rw [List.length_take, List.length_drop]
    omega
  have hloop : Returns (forUp (fun i => do
        let target ← intExpr (i + n)
        store data target (← load source i)) first
        ((old.drop first).take (last - first)).length) s ()
      (s.withCells data (overwrite cells (first + n) ((old.drop first).take (last - first)))) := by
    refine returns_forUp_write hdata (by omega) (by omega) (by omega) ?_
    rintro k hk t rfl ht
    rw [hlength] at hk
    have hkept := (ArrayHeap.Keeps.replaceAt data s.heap (overwrite cells (first + n)
      (((old.drop first).take (last - first)).take k))).cellsAt hother hsource
    refine (returns_intExpr ⟨by omega, by omega⟩ _).bind ?_
    rw [← Nat.cast_add, ← Nat.cast_add]
    refine (returns_load hkept (by omega)).bind ?_
    rw [List.getElem_take, List.getElem_drop, Nat.add_right_comm first k n]
    exact returns_store ht (by rw [length_overwrite (by simp; omega)]; omega) _
  rwa [hlength] at hloop

/-- `data[i] = data[i + 1]` from `first` on, for all but the last cell used. -/
theorem returns_shift_left (hdata : s.heap.cellsAt data = some cells) {first last : ℕ}
    (hrange : first ≤ last) (hfits : last < cells.length) (hsmall : last < 2 ^ 31 - 1) :
    Returns (forUp (fun i => do
        let source ← intExpr (i + 1)
        store data i (← load data source)) first (last - first)) s ()
      (s.withCells data (overwrite cells first ((cells.drop (first + 1)).take (last - first)))) := by
  have hlength : ((cells.drop (first + 1)).take (last - first)).length = last - first := by
    rw [List.length_take, List.length_drop]
    omega
  have hloop : Returns (forUp (fun i => do
        let source ← intExpr (i + 1)
        store data i (← load data source)) first
        ((cells.drop (first + 1)).take (last - first)).length) s ()
      (s.withCells data
        (overwrite cells first ((cells.drop (first + 1)).take (last - first)))) := by
    refine returns_forUp_write hdata (by omega) (by omega) (by omega) ?_
    rintro k hk t rfl ht
    rw [hlength] at hk
    have hfits' : first + (((cells.drop (first + 1)).take (last - first)).take k).length ≤
        cells.length := by
      rw [List.length_take]
      omega
    have hinside : first + k + 1 < cells.length := by omega
    have hread : (overwrite cells first
        (((cells.drop (first + 1)).take (last - first)).take k))[first + k + 1]? =
        some cells[first + k + 1] := by
      rw [getElem?_overwrite hfits', if_neg (by omega),
        if_neg (by rw [List.length_take]; omega), List.getElem?_eq_getElem]
    obtain ⟨hlt, hget⟩ := List.getElem?_eq_some_iff.mp hread
    refine (returns_intExpr ⟨by omega, by omega⟩ _).bind ?_
    have hload := returns_load ht hlt
    push_cast at hload
    refine hload.bind ?_
    rw [hget, List.getElem_take, List.getElem_drop, ← Nat.cast_add]
    have hindex : first + 1 + k = first + k + 1 := by omega
    simp only [hindex]
    exact returns_store ht (by rw [length_overwrite hfits']; omega) _
  rwa [hlength] at hloop

/-- `data[i + n - 1] = data[i - 1]` from `last` down to behind `first`. -/
theorem returns_shift_right (hdata : s.heap.cellsAt data = some cells) {first last n : ℕ}
    (hrange : first ≤ last) (hfits : last + n ≤ cells.length) (hsmall : last + n < 2 ^ 31) :
    Returns (forDown (fun i => do
        let target ← intExpr (i + n)
        store data (target - 1) (← load data (i - 1))) last (last - first)) s ()
      (s.withCells data (overwrite cells (first + n) ((cells.drop first).take (last - first)))) := by
  have hloop : Returns (forDown (fun i => do
      let target ← intExpr (i + n)
      store data (target - 1) (← load data (i - 1))) last (last - first)) _ () _ := returns_forDown
    (fun k => s.withCells data (overwrite cells (last + n - k) ((cells.drop (last - k)).take k)))
    (by omega) (by omega) ?_
  · have hstart : s.withCells data (overwrite cells (last + n - 0)
        ((cells.drop (last - 0)).take 0)) = s := by
      rw [List.take_zero, overwrite_nil, Store.withCells, ArrayHeap.replaceAt_self hdata]
    rw [hstart, show last + n - (last - first) = first + n by omega, Nat.sub_sub_self hrange]
      at hloop
    exact hloop
  · intro k hk
    obtain ⟨below, rfl⟩ : ∃ below, last = below + 1 + k := ⟨last - 1 - k, by omega⟩
    rw [show below + 1 + k + n - k = below + n + 1 by omega, Nat.add_sub_cancel,
      show below + 1 + k + n - (k + 1) = below + n by omega,
      show below + 1 + k - (k + 1) = below by omega]
    have hlength : ((cells.drop (below + 1)).take k).length = k := by
      rw [List.length_take, List.length_drop]
      omega
    have hfits' : below + n + 1 + ((cells.drop (below + 1)).take k).length ≤ cells.length := by
      omega
    have ht : (s.withCells data (overwrite cells (below + n + 1)
        ((cells.drop (below + 1)).take k))).heap.cellsAt data = some _ :=
      ArrayHeap.cellsAt_replaceAt hdata (length_overwrite hfits')
    have hinside : below < cells.length := by omega
    have hread : (overwrite cells (below + n + 1) ((cells.drop (below + 1)).take k))[below]? =
        some cells[below] := by
      rw [getElem?_overwrite hfits', if_pos (by omega), List.getElem?_eq_getElem]
    obtain ⟨hlt, hget⟩ := List.getElem?_eq_some_iff.mp hread
    refine (returns_intExpr ⟨by omega, by omega⟩ _).bind ?_
    rw [show ((below + 1 + k : ℕ) : ℤ) - k - 1 = (below : ℕ) by push_cast; ring,
      show ((below + 1 + k : ℕ) : ℤ) - k + n - 1 = (below + n : ℕ) by push_cast; ring]
    refine (returns_load ht hlt).bind ?_
    have hstore := returns_store ht (i := below + n) (by rw [length_overwrite hfits']; omega)
      cells[below]
    rw [overwrite_set_before hfits', Store.withCells_withCells] at hstore
    rw [hget, List.drop_eq_getElem_cons (show below < cells.length by omega), List.take_succ_cons]
    exact hstore

end MyVector

end CppProjects
