import CppProjects.Core.TransitionSystem
import CppProjects.Vector.MyVectorSteps

/-!
# `myVector` as a sequence

Each operation on vectors that represent lists returns, touches no cell outside
of an array, and leaves vectors that represent the lists after the corresponding
list operation.  The exception is `swap`, which passes a capacity through an
`int`.
-/

namespace CppProjects

open CInt Program

namespace MyVector

variable {ι α : Type}

/-! ## Representation -/

/-- A vector whose buffer has as many slots as the capacity says and begins with
the elements of a list. -/
structure Holds (heap : ArrayHeap (Option α)) (this : MyVector) (xs : List α) : Prop where
  size : this.mSize = xs.length
  small : xs.length < 2 ^ 31
  capacity : this.mCapacity < 2 ^ 32
  buffer : ∃ cells, heap.cellsAt this.mData = some cells ∧ cells.length = this.mCapacity ∧
    xs.map some <+: cells

/-- The vectors represent the lists, no two of them share a buffer, and
allocations succeed. -/
structure Refines (s : Store ι α) (lists : ι → List α) : Prop where
  holds : ∀ v, Holds s.heap (s.vectors v) (lists v)
  separate : ∀ v w addr, v ≠ w → (s.vectors v).mData = some addr →
    (s.vectors w).mData ≠ some addr
  memory : ∀ addr, s.refuses addr = false

/-- A vector of such a store, with its buffer. -/
structure Opened (s : Store ι α) (v : ι) (xs : List α) (data : Option ℕ)
    (cells : List (Option α)) : Prop where
  vector : s.vectors v = ⟨data, xs.length, cells.length⟩
  buffer : s.heap.cellsAt data = some cells
  capacity : cells.length < 2 ^ 32
  small : xs.length < 2 ^ 31
  front : xs.map some <+: cells
  ne_new : data ≠ some s.heap.next

variable {s : Store ι α} {lists : ι → List α} {v : ι}

theorem Holds.opened {xs : List α} (hholds : Holds s.heap (s.vectors v) xs) :
    ∃ data cells, Opened s v xs data cells := by
  obtain ⟨hsize, hsmall, hcapacity, cells, hcells, hlength, hfront⟩ := hholds
  refine ⟨(s.vectors v).mData, cells, ?_, hcells, hlength ▸ hcapacity, hsmall, hfront, ?_⟩
  · rw [← hsize, hlength]
  · intro heq
    rw [heq] at hcells
    exact absurd (ArrayHeap.lt_next hcells) (lt_irrefl _)

theorem Refines.opened (hrefines : Refines s lists) (v : ι) :
    ∃ data cells, Opened s v (lists v) data cells := (hrefines.holds v).opened

theorem Refines.lt_next (hrefines : Refines s lists) {addr : ℕ}
    (hdata : (s.vectors v).mData = some addr) : addr < s.heap.next := by
  obtain ⟨cells, hcells, -⟩ := (hrefines.holds v).buffer
  rw [hdata] at hcells
  exact ArrayHeap.lt_next hcells

variable {xs ys : List α} {data : Option ℕ} {cells cells' : List (Option α)}

theorem Opened.fits (hopened : Opened s v xs data cells) : xs.length ≤ cells.length := by
  simpa using hopened.front.length_le

theorem Opened.vector_withCells (hopened : Opened s v xs data cells) :
    (s.withCells data cells').vectors v = ⟨data, xs.length, cells.length⟩ := hopened.vector

theorem Opened.elements (hopened : Opened s v xs data cells) :
    cells.take xs.length = xs.map some := by
  have htake := List.prefix_iff_eq_take.mp hopened.front
  rw [List.length_map] at htake
  exact htake.symm

variable [DecidableEq ι] {this that : MyVector}

/-- An operation on one vector leaves the others alone. -/
theorem Refines.update (hrefines : Refines s lists) {heap : ArrayHeap (Option α)}
    (hkeeps : ArrayHeap.Keeps (s.vectors v).mData s.heap heap)
    (hdata : this.mData = (s.vectors v).mData ∨ this.mData = some s.heap.next)
    (hholds : Holds heap this xs) :
    Refines { s with heap := heap, vectors := Function.update s.vectors v this }
      (Function.update lists v xs) where
  holds := by
    intro w
    by_cases heq : w = v
    · subst heq
      simpa using hholds
    · obtain ⟨hsize, hsmall, hcapacity, cells, hcells, hlength, hfront⟩ := hrefines.holds w
      dsimp only
      rw [Function.update_of_ne heq, Function.update_of_ne heq]
      refine ⟨hsize, hsmall, hcapacity, cells, ?_, hlength, hfront⟩
      refine hkeeps.cellsAt (fun hsome hsame => ?_) hcells
      obtain ⟨addr, haddr⟩ := Option.ne_none_iff_exists'.mp hsome
      exact hrefines.separate w v addr heq haddr (hsame.trans haddr)
  separate := by
    have hfresh : ∀ w addr, w ≠ v → this.mData = some addr → (s.vectors w).mData ≠ some addr := by
      intro w addr hne hthis hw
      rcases hdata with hsame | hnew
      · exact hrefines.separate w v addr hne hw (hsame ▸ hthis)
      · obtain rfl : s.heap.next = addr := Option.some.inj (hnew.symm.trans hthis)
        exact absurd (hrefines.lt_next hw) (lt_irrefl _)
    intro w u addr hne hw
    dsimp only at hw ⊢
    by_cases heqw : w = v
    · subst heqw
      rw [Function.update_self] at hw
      rw [Function.update_of_ne (Ne.symm hne)]
      exact hfresh u addr (Ne.symm hne) hw
    · rw [Function.update_of_ne heqw] at hw
      by_cases hequ : u = v
      · subst hequ
        rw [Function.update_self]
        exact fun hthis => hfresh w addr heqw hthis hw
      · rw [Function.update_of_ne hequ]
        exact hrefines.separate w u addr hne hw
  memory := hrefines.memory

/-! ## Outcomes -/

/-- Every array in use is the buffer of a vector. -/
def Owned (s : Store ι α) : Prop :=
  ∀ addr, (s.heap.arrays addr).isSome → ∃ v, (s.vectors v).mData = some addr

/-- The outcome of an operation on `v` that makes its list `ys`. -/
structure Leads (s : Store ι α) (lists : ι → List α) (v : ι) (ys : List α) (s' : Store ι α) :
    Prop where
  refines : Refines s' (Function.update lists v ys)
  others : ∀ w, w ≠ v → s'.vectors w = s.vectors w
  owned : Owned s → Owned s'

theorem Refines.leads_self (hrefines : Refines s lists) (v : ι) :
    Leads s lists v (lists v) s where
  refines := by rwa [Function.update_eq_self]
  others _ _ := rfl
  owned := id

/-- An array in use afterwards is the new buffer of the vector, or was in use before
and is not its old one. -/
theorem Refines.leads (hrefines : Refines s lists) {heap : ArrayHeap (Option α)}
    (hkeeps : ArrayHeap.Keeps (s.vectors v).mData s.heap heap)
    (hdata : this.mData = (s.vectors v).mData ∨ this.mData = some s.heap.next)
    (hholds : Holds heap this xs)
    (hused : ∀ addr, (heap.arrays addr).isSome → this.mData = some addr ∨
      (s.heap.arrays addr).isSome ∧ (s.vectors v).mData ≠ some addr) :
    Leads s lists v xs { s with heap := heap, vectors := Function.update s.vectors v this } where
  refines := hrefines.update hkeeps hdata hholds
  others _ hne := Function.update_of_ne hne ..
  owned := by
    intro howned addr haddr
    rcases hused addr haddr with hthis | ⟨hbefore, hother⟩
    · refine ⟨v, ?_⟩
      dsimp only
      rw [Function.update_self, hthis]
    · obtain ⟨w, hw⟩ := howned addr hbefore
      have hne : w ≠ v := by
        rintro rfl
        exact hother hw
      refine ⟨w, ?_⟩
      dsimp only
      rw [Function.update_of_ne hne, hw]

/-- The outcome of an operation that works in the buffer it finds. -/
theorem Refines.inPlace (hrefines : Refines s lists) (hopened : Opened s v xs data cells)
    (hlength : cells'.length = cells.length) (hfront : ys.map some <+: cells')
    (hsmall : ys.length < 2 ^ 31) :
    Leads s lists v ys ((s.withCells data cells').withVector v ⟨data, ys.length, cells.length⟩) := by
  have hdata : (s.vectors v).mData = data := by rw [hopened.vector]
  refine hrefines.leads ?_ (.inl hdata.symm) ?_ fun addr haddr => ?_
  · rw [hdata]
    exact ArrayHeap.Keeps.replaceAt data s.heap cells'
  · exact ⟨rfl, hsmall, hopened.capacity, cells',
      ArrayHeap.cellsAt_replaceAt hopened.buffer hlength, hlength, hfront⟩
  · rw [hdata]
    refine or_iff_not_imp_left.mpr fun hother => ⟨?_, hother⟩
    rwa [← ArrayHeap.replaceAt_arrays_of_ne hother]

theorem Refines.resized (hrefines : Refines s lists) (hopened : Opened s v xs data cells)
    (hfront : ys.map some <+: cells) (hsmall : ys.length < 2 ^ 31) :
    Leads s lists v ys (s.withVector v ⟨data, ys.length, cells.length⟩) := by
  have hinPlace := hrefines.inPlace hopened rfl hfront hsmall
  rwa [Store.withCells, ArrayHeap.replaceAt_self hopened.buffer] at hinPlace

/-! ## Moving to a new buffer -/

/-- The store in the middle of a move: the new array is there, and the old one
still is. -/
def moving (s : Store ι α) (v : ι) (cells : List (Option α)) (this : MyVector) : Store ι α :=
  (s.withNew cells).withVector v this

/-- The store in which `v` has a new buffer, and its old one is released. -/
def moved (s : Store ι α) (v : ι) (data : Option ℕ) (cells : List (Option α))
    (this : MyVector) : Store ι α :=
  ((s.withNew cells).without data).withVector v this

@[simp]
theorem vectors_moving : (moving s v cells this).vectors v = this := Function.update_self ..

@[simp]
theorem vectors_moved : (moved s v data cells this).vectors v = this := Function.update_self ..

@[simp]
theorem moved_withVector :
    (moved s v data cells this).withVector v that = moved s v data cells that := by
  simp [moved]

theorem returns_update_moved (f : MyVector → MyVector) :
    Returns (MyVector.update v f) (moved s v data cells this) () (moved s v data cells (f this)) := by
  have hthis : (moved s v data cells this).vectors v = this := vectors_moved
  have hupdate := returns_update hthis f
  rwa [moved_withVector] at hupdate

theorem moving_withCells (cells' : List (Option α)) :
    (moving s v cells this).withCells (some s.heap.next) cells' = moving s v cells' this := by
  simp [moving, Store.withCells, Store.withVector, Store.withNew, ArrayHeap.replaceAt]

theorem Opened.moved_withCells (hopened : Opened s v xs data cells) (cells' : List (Option α))
    {old : List (Option α)} :
    (moved s v data old this).withCells (some s.heap.next) cells' = moved s v data cells' this := by
  simp only [moved, Store.withCells, Store.without, Store.withNew, Store.withVector,
    ArrayHeap.replaceAt, ArrayHeap.freeAt_replace hopened.ne_new, ArrayHeap.alloc_replace]

theorem denotes_moved {x : α} {value : Arg α} (hvalue : Arg.Denotes s.heap data x value) :
    Arg.Denotes (moved s v data cells' this).heap data x value :=
  hvalue.keeps ((ArrayHeap.Keeps.alloc data s.heap cells').trans (ArrayHeap.Keeps.freeAt _ _))

theorem denotes_moving {x : α} {value : Arg α} (hvalue : Arg.Denotes s.heap data x value) :
    Arg.Denotes (moving s v cells' this).heap (some s.heap.next) x value :=
  hvalue.alloc cells'

theorem cellsAt_moving : (moving s v cells this).heap.cellsAt (some s.heap.next) = some cells :=
  ArrayHeap.alloc_arrays_next s.heap cells

theorem Opened.cellsAt_moving_old (hopened : Opened s v xs data cells) :
    (moving s v cells' this).heap.cellsAt data = some cells := by
  have hbuffer := hopened.buffer
  cases data with
  | none => exact hbuffer
  | some addr => exact ArrayHeap.alloc_arrays_of_some hbuffer

theorem Opened.cellsAt_moved (hopened : Opened s v xs data cells) (this : MyVector) :
    (moved s v data cells' this).heap.cellsAt (some s.heap.next) = some cells' :=
  (ArrayHeap.freeAt_arrays_of_ne hopened.ne_new).trans (ArrayHeap.alloc_arrays_next s.heap cells')

/-- `new T[n]` begins a move. -/
theorem returns_newArray_moving (hmemory : s.refuses s.heap.next = false) (n : ℕ) :
    Returns (newArray n) (s.withVector v this) s.heap.next
      (moving s v (List.replicate n none) this) :=
  returns_newArray (s := s.withVector v this) hmemory n

theorem Refines.returns_newArray (hrefines : Refines s lists) (n : ℕ) :
    Returns (newArray n) (s.withVector v this) s.heap.next
      (moving s v (List.replicate n none) this) :=
  returns_newArray_moving (hrefines.memory s.heap.next) n

/-- The release of the old buffer ends it. -/
theorem Opened.returns_release (hopened : Opened s v xs data cells) {size capacity : ℕ} :
    Returns (release v) (moving s v cells' ⟨data, size, capacity⟩) ()
      (moved s v data cells' ⟨none, size, capacity⟩) := by
  have hold : (moving s v cells' ⟨data, size, capacity⟩).heap.cellsAt data = some cells :=
    hopened.cellsAt_moving_old
  have hrelease := MyVector.returns_release vectors_moving hold
  have hstate : ((moving s v cells' ⟨data, size, capacity⟩).without data).withVector v
      ⟨none, size, capacity⟩ = moved s v data cells' ⟨none, size, capacity⟩ := by
    simp [moving, moved, Store.without, Store.withVector]
  rwa [hstate] at hrelease

/-- A new buffer that begins with copies of some elements. -/
def copied (capacity : ℕ) (xs : List α) : List (Option α) :=
  overwrite (List.replicate capacity none) 0 (xs.map some)

omit [DecidableEq ι] in
theorem length_copied {capacity : ℕ} (hfits : xs.length ≤ capacity) :
    (copied capacity xs).length = capacity := by
  rw [copied, length_overwrite (by simpa using hfits), List.length_replicate]

omit [DecidableEq ι] in
theorem prefix_copied (capacity : ℕ) (xs : List α) : xs.map some <+: copied capacity xs :=
  prefix_overwrite _ List.nil_prefix

/-- The loop that copies the elements into the new buffer. -/
theorem Opened.returns_copy (hopened : Opened s v xs data cells) (this : MyVector)
    {n capacity : ℕ} (hfits : n ≤ capacity) (hle : n ≤ xs.length) :
    Returns (forUp (fun i => do store (some s.heap.next) i (← load data i)) 0 n)
      (moving s v (List.replicate capacity none) this) ()
      (moving s v (copied capacity (xs.take n)) this) := by
  have hnew : (moving s v (List.replicate capacity none) this).heap.cellsAt (some s.heap.next) =
      some (List.replicate capacity none) := cellsAt_moving
  have hcopy := MyVector.returns_copy hnew hopened.cellsAt_moving_old
    (fun _ heq => hopened.ne_new heq.symm) (by rwa [List.length_replicate])
    (by have := hopened.small; omega) (hle.trans hopened.fits)
  have htake : cells.take n = (xs.take n).map some := by
    rw [List.map_take, ← hopened.elements, List.take_take, min_eq_left hle]
  rwa [moving_withCells, htake] at hcopy

/-- The outcome of an operation that moves the elements to a new buffer. -/
theorem Refines.moved (hrefines : Refines s lists) (hopened : Opened s v xs data cells)
    (hcapacity : cells'.length < 2 ^ 32) (hfront : ys.map some <+: cells')
    (hsmall : ys.length < 2 ^ 31) :
    Leads s lists v ys (moved s v data cells' ⟨some s.heap.next, ys.length, cells'.length⟩) := by
  have hdata : (s.vectors v).mData = data := by rw [hopened.vector]
  refine hrefines.leads ?_ (.inr rfl) ?_ fun addr haddr => ?_
  · rw [hdata]
    exact (ArrayHeap.Keeps.alloc data s.heap cells').trans (ArrayHeap.Keeps.freeAt _ _)
  · have hbuffer : (MyVector.moved s v data cells' ⟨none, 0, 0⟩).heap.cellsAt
        (some s.heap.next) = some cells' := hopened.cellsAt_moved _
    exact ⟨rfl, hsmall, hcapacity, cells', hbuffer, rfl, hfront⟩
  · rw [hdata]
    refine or_iff_not_imp_left.mpr fun hnew => ?_
    have hother : addr ≠ s.heap.next := fun heq => hnew (by rw [heq])
    rw [Store.without, Store.withNew] at haddr
    have hold : data ≠ some addr := by
      rintro rfl
      rw [ArrayHeap.freeAt_arrays_self] at haddr
      cases haddr
    rw [ArrayHeap.freeAt_arrays_of_ne hold, ArrayHeap.alloc_arrays_of_ne hother] at haddr
    exact ⟨haddr, hold⟩

/-! ## Capacities -/

theorem doubled_of_pos {capacity : ℕ} (hpos : 0 < capacity) (hsmall : capacity < 2 ^ 63) :
    doubled capacity = capacity * 2 := by
  rw [doubled, if_neg (by omega)]
  exact_mod_cast toSize_natCast (show capacity * 2 < 2 ^ 64 by omega)

theorem doubled_spec {capacity : ℕ} (hcapacity : capacity < 2 ^ 31) :
    capacity < doubled capacity ∧ doubled capacity < 2 ^ 32 := by
  rcases Nat.eq_zero_or_pos capacity with rfl | hpos
  · exact ⟨by decide, by decide⟩
  · rw [doubled_of_pos hpos (by omega)]
    omega

/-- Doubling reaches any size below `2^31` before it overflows. -/
theorem growTo_eq_some {needed : ℕ} (hneeded : needed < 2 ^ 31) {fuel capacity : ℕ}
    (hcapacity : capacity < 2 ^ 32) (hfuel : needed - capacity < fuel) :
    ∃ grown, growTo needed fuel capacity = some grown ∧ needed ≤ grown ∧ capacity ≤ grown ∧
      grown < 2 ^ 32 := by
  induction fuel generalizing capacity with
  | zero => exact absurd hfuel (by omega)
  | succ fuel ih =>
      rw [growTo]
      split_ifs with hlt
      · obtain ⟨hup, hbound⟩ := doubled_spec (show capacity < 2 ^ 31 by omega)
        obtain ⟨grown, hgrown, hle, hge, hfinal⟩ := ih hbound (by omega)
        exact ⟨grown, hgrown, hle, hup.le.trans hge, hfinal⟩
      · exact ⟨capacity, rfl, by omega, le_rfl, hcapacity⟩

theorem returns_growCapacity {needed capacity size : ℕ} (hneeded : needed < 2 ^ 31)
    (hthis : s.vectors v = ⟨data, size, capacity⟩) (hcapacity : capacity < 2 ^ 32) :
    ∃ grown, Returns (growCapacity v needed) s () (s.withVector v ⟨data, size, grown⟩) ∧
      needed ≤ grown ∧ capacity ≤ grown ∧ grown < 2 ^ 32 := by
  obtain ⟨grown, hgrown, hle, hge, hbound⟩ :=
    growTo_eq_some hneeded hcapacity (show needed - capacity < 2 ^ 64 + 1 by omega)
  refine ⟨grown, ?_, hle, hge, hbound⟩
  exact (returns_self hthis).bind ((returns_defined hgrown s).bind (returns_update hthis _))

/-! ## Operations -/

variable {x : α} {value : Arg α}

theorem toSize_length_append (hsmall : (xs ++ ys).length < 2 ^ 31) :
    toSize ((xs.length : ℤ) + ys.length) = (xs ++ ys).length := by
  rw [List.length_append] at hsmall ⊢
  exact_mod_cast toSize_natCast (show xs.length + ys.length < 2 ^ 64 by omega)

theorem pushBack_leads (hrefines : Refines s lists)
    (hvalue : Arg.Denotes s.heap (s.vectors v).mData x value)
    (hsmall : (lists v ++ [x]).length < 2 ^ 31) :
    ∃ s', Returns (pushBack v value) s () s' ∧
      Leads s lists v (lists v ++ [x]) s' := by
  obtain ⟨data, cells, hopened⟩ := hrefines.opened v
  rw [hopened.vector] at hvalue
  have hle := hopened.fits
  have hsize := toSize_length_append hsmall
  rw [List.length_singleton, Nat.cast_one] at hsize
  have hlonger : ∀ {buffer : List (Option α)}, (lists v).map some <+: buffer →
      (lists v).length < buffer.length →
      (lists v ++ [x]).map some <+: buffer.set (lists v).length (some x) := by
    intro buffer hfront hlt
    have hnext := prefix_overwrite [some x] hfront
    rwa [List.length_map, ← set_eq_overwrite hlt, ← List.map_singleton, ← List.map_append] at hnext
  by_cases hroom : (lists v).length < cells.length
  · refine ⟨_, ?_, hrefines.inPlace hopened (by simp) (hlonger hopened.front hroom) hsmall⟩
    refine (returns_self hopened.vector).bind ?_
    rw [if_pos hroom, ← hsize]
    refine hvalue.returns.bind ((returns_store hopened.buffer hroom (some x)).bind ?_)
    exact returns_update hopened.vector_withCells _
  · have hcapacity : cells.length < 2 ^ 31 := by have := hopened.small; omega
    obtain ⟨hgrow, hbound⟩ := doubled_spec hcapacity
    have hfits : (lists v).length ≤ doubled cells.length := by omega
    have hlength := length_copied hfits
    have hlast : (lists v).length < (copied (doubled cells.length) (lists v)).length := by omega
    have hcopy := hopened.returns_copy ⟨data, (lists v).length, doubled cells.length⟩
      hfits le_rfl
    rw [List.take_length] at hcopy
    have hstore := returns_store (hopened.cellsAt_moved
      ⟨some s.heap.next, (lists v).length, doubled cells.length⟩) hlast (some x)
    rw [hopened.moved_withCells] at hstore
    have hfinal := hrefines.moved hopened (by rw [List.length_set]; omega)
      (hlonger (prefix_copied _ _) hlast) hsmall
    rw [List.length_set, hlength, ← hsize] at hfinal
    refine ⟨_, ?_, hfinal⟩
    refine (returns_self hopened.vector).bind ?_
    rw [if_neg hroom]
    refine (returns_update hopened.vector _).bind ((hrefines.returns_newArray _).bind
      (hcopy.bind (hopened.returns_release.bind ((returns_update_moved _).bind ?_))))
    exact (denotes_moved hvalue).returns.bind (hstore.bind (returns_update_moved _))

theorem popBack_leads (hrefines : Refines s lists) (v : ι) :
    ∃ s', Returns (popBack v) s () s' ∧
      Leads s lists v (lists v).dropLast s' := by
  obtain ⟨data, cells, hopened⟩ := hrefines.opened v
  have hlength : (lists v).dropLast.length = (lists v).length - 1 := List.length_dropLast
  by_cases hpos : 0 < (lists v).length
  · have hfront : (lists v).dropLast.map some <+: cells :=
      ((List.dropLast_prefix _).map some).trans hopened.front
    refine ⟨_, ?_, hrefines.resized hopened hfront (by have := hopened.small; omega)⟩
    refine (returns_self hopened.vector).bind ?_
    rw [if_pos hpos, hlength]
    exact returns_update hopened.vector _
  · have hnil : lists v = [] := List.length_eq_zero_iff.mp (by omega)
    refine ⟨s, ?_, ?_⟩
    · refine (returns_self hopened.vector).bind ?_
      rw [if_neg hpos]
      exact returns_pure () s
    · rw [hnil, List.dropLast_nil, ← hnil]
      exact hrefines.leads_self v

theorem clear_leads (hrefines : Refines s lists) (v : ι) :
    ∃ s', Returns (clear v) s () s' ∧ Leads s lists v [] s' := by
  obtain ⟨data, cells, hopened⟩ := hrefines.opened v
  have hfront : ([] : List α).map some <+: cells := List.nil_prefix
  exact ⟨_, returns_update hopened.vector _, hrefines.resized hopened hfront (by simp)⟩

theorem toSize_natCast_small {n : ℕ} (hsmall : n < 2 ^ 31) : toSize n = n :=
  toSize_natCast (by omega)

/-- `reserve` with a size that is not below the capacity moves to a new buffer. -/
theorem returns_reserve (hrefines : Refines s lists) (hopened : Opened s v (lists v) data cells)
    {n grown : ℕ} (hsmall : n < 2 ^ 31) (hroom : ¬ n < cells.length)
    (hgrown : growTo n (2 ^ 64 + 1) cells.length = some grown) (hge : cells.length ≤ grown) :
    Returns (reserve v n) s ()
      (moved s v data (copied grown (lists v)) ⟨some s.heap.next, (lists v).length, grown⟩) := by
  have hgrow : Returns (growCapacity v n) s ()
      (s.withVector v ⟨data, (lists v).length, grown⟩) :=
    (returns_self hopened.vector).bind ((returns_defined hgrown s).bind
      (returns_update hopened.vector _))
  have hcopy := hopened.returns_copy ⟨data, (lists v).length, grown⟩ (hopened.fits.trans hge) le_rfl
  rw [List.take_length] at hcopy
  refine (returns_self hopened.vector).bind ?_
  rw [toSize_natCast_small hsmall, if_neg hroom]
  refine hgrow.bind ((returns_self (Store.vectors_withVector s)).bind
    ((hrefines.returns_newArray _).bind (hcopy.bind (hopened.returns_release.bind ?_))))
  exact returns_update_moved _

theorem reserve_leads (hrefines : Refines s lists) (v : ι) {n : ℕ} (hsmall : n < 2 ^ 31) :
    ∃ s', Returns (reserve v n) s () s' ∧ Leads s lists v (lists v) s' := by
  obtain ⟨data, cells, hopened⟩ := hrefines.opened v
  by_cases hroom : n < cells.length
  · refine ⟨s, (returns_self hopened.vector).bind ?_, hrefines.leads_self v⟩
    rw [toSize_natCast_small hsmall, if_pos hroom]
    exact returns_pure () s
  · obtain ⟨grown, hgrown, -, hge, hbound⟩ := growTo_eq_some hsmall hopened.capacity
      (show n - cells.length < 2 ^ 64 + 1 by omega)
    have hfits : (lists v).length ≤ grown := hopened.fits.trans hge
    have hfinal := hrefines.moved hopened (by rwa [length_copied hfits])
      (prefix_copied grown (lists v)) hopened.small
    rw [length_copied hfits] at hfinal
    exact ⟨_, returns_reserve hrefines hopened hsmall hroom hgrown hge, hfinal⟩

/-- An element of another vector is still there once a vector has its new
buffer. -/
theorem denotes_installed (hvalue : Arg.Denotes s.heap data x value) :
    Arg.Denotes (moved s v data cells' this).heap (some s.heap.next) x value := by
  cases hvalue with
  | temp => exact .temp
  | slot hother haddr hget =>
      have hkept := (ArrayHeap.Keeps.alloc data s.heap cells').trans
        (ArrayHeap.Keeps.freeAt data _)
      refine .slot ?_ (hkept _ _ hother haddr) hget
      intro heq
      exact absurd (ArrayHeap.lt_next haddr) (by simp [Option.some.inj heq])

theorem Opened.returns_discard (hopened : Opened s v xs data cells) :
    Returns (discard v) s () ((s.without data).withVector v ⟨none, 0, 0⟩) := by
  have hvector := hopened.vector
  have hbuffer := hopened.buffer
  have hfits := hopened.fits
  cases data with
  | none =>
      refine (returns_self hvector).bind ?_
      obtain rfl : [] = cells := Option.some.inj hbuffer
      obtain rfl : xs = [] := List.length_eq_zero_iff.mp (by simpa using hfits)
      have hsame : s.withVector v ⟨none, 0, 0⟩ = s := by
        rw [show (⟨none, 0, 0⟩ : MyVector) = s.vectors v from hvector.symm]
        simp [Store.withVector]
      change Returns (pure ()) s () (s.withVector v ⟨none, 0, 0⟩)
      rw [hsame]
      exact returns_pure () s
  | some addr => exact returns_discard_some hvector rfl hbuffer

/-- `assign` asks for its new array when the old one is gone already. -/
theorem Opened.returns_newArray_discarded (hopened : Opened s v xs data cells)
    (hmemory : s.refuses s.heap.next = false) (n : ℕ) :
    Returns (newArray n) ((s.without data).withVector v this) s.heap.next
      (MyVector.moved s v data (List.replicate n none) this) := by
  have hnext : ((s.without data).withVector v this).heap.next = s.heap.next :=
    Store.next_without s
  have hmemory' : ((s.without data).withVector v this).refuses
      ((s.without data).withVector v this).heap.next = false := by rwa [hnext]
  have hnew := returns_newArray hmemory' n
  have hstate : ((s.without data).withVector v this).withNew (List.replicate n none) =
      MyVector.moved s v data (List.replicate n none) this := by
    simp only [MyVector.moved, Store.withVector, Store.without, Store.withNew,
      ArrayHeap.freeAt_alloc hopened.ne_new]
  rwa [hstate, hnext] at hnew

theorem assign_leads (hrefines : Refines s lists)
    (hvalue : Arg.Denotes s.heap (s.vectors v).mData x value) {n : ℕ} (hsmall : n < 2 ^ 31) :
    ∃ s', Returns (assign v n value) s () s' ∧
      Leads s lists v (List.replicate n x) s' := by
  obtain ⟨data, cells, hopened⟩ := hrefines.opened v
  rw [hopened.vector] at hvalue
  have hlength : (List.replicate n x).length = n := List.length_replicate
  have hfront : ∀ buffer : List (Option α), (List.replicate n x).map some <+:
      overwrite buffer 0 (List.replicate n (some x)) := by
    intro buffer
    rw [List.map_replicate]
    exact prefix_overwrite _ List.nil_prefix
  by_cases hroom : n ≤ cells.length
  · have hfill := returns_fill hopened.buffer hvalue 0 n (by omega) (by omega)
    have hcells : (overwrite cells 0 (List.replicate n (some x))).length = cells.length :=
      length_overwrite (by rw [List.length_replicate]; omega)
    have hfinal := hrefines.inPlace hopened hcells (hfront cells) (by omega)
    rw [hlength] at hfinal
    refine ⟨_, ?_, hfinal⟩
    refine (returns_self hopened.vector).bind ?_
    rw [toSize_natCast_small hsmall, if_pos hroom]
    exact hfill.bind (returns_update hopened.vector_withCells _)
  · have hthis : ((s.without data).withVector v ⟨none, 0, 0⟩).vectors v = ⟨none, 0, 0⟩ :=
      Store.vectors_withVector _
    obtain ⟨grown, hgrow, hfits, -, hbound⟩ := returns_growCapacity hsmall hthis (by decide)
    rw [Store.withVector_withVector] at hgrow
    have hbuffer : (MyVector.moved s v data (List.replicate grown none)
        ⟨some s.heap.next, 0, grown⟩).heap.cellsAt (some s.heap.next) = _ :=
      hopened.cellsAt_moved _
    have hfill := returns_fill hbuffer (denotes_installed hvalue) 0 n
      (by rw [List.length_replicate]; omega) (by omega)
    rw [hopened.moved_withCells] at hfill
    have hcells : (overwrite (List.replicate grown none) 0 (List.replicate n (some x))).length =
        grown := by
      rw [length_overwrite (by simp only [List.length_replicate]; omega), List.length_replicate]
    have hfinal := hrefines.moved hopened (by omega) (hfront (List.replicate grown none)) (by omega)
    rw [hcells, hlength] at hfinal
    refine ⟨_, ?_, hfinal⟩
    refine (returns_self hopened.vector).bind ?_
    rw [toSize_natCast_small hsmall, if_neg hroom]
    refine hopened.returns_discard.bind (hgrow.bind
      ((returns_self (Store.vectors_withVector _)).bind
        ((hopened.returns_newArray_discarded (hrefines.memory _) _).bind
          ((returns_update_moved _).bind ?_))))
    exact hfill.bind (returns_update_moved _)

theorem toInt_natCast_small {n : ℕ} (hsmall : n < 2 ^ 31) : toInt n = n :=
  toInt_eq_self ⟨by omega, by omega⟩

/-- The list cut or padded to `n` elements. -/
def padded (xs : List α) (n : ℕ) (x : α) : List α := xs.take n ++ List.replicate (n - xs.length) x

omit [DecidableEq ι] in
theorem length_padded (xs : List α) (n : ℕ) (x : α) : (padded xs n x).length = n := by
  simp only [padded, List.length_append, List.length_take, List.length_replicate]
  omega

theorem resize_leads (hrefines : Refines s lists)
    (hvalue : Arg.Denotes s.heap (s.vectors v).mData x value) {n : ℕ} (hsmall : n < 2 ^ 31) :
    ∃ s', Returns (resize v n value) s () s' ∧
      Leads s lists v (padded (lists v) n x) s' := by
  obtain ⟨data, cells, hopened⟩ := hrefines.opened v
  rw [hopened.vector] at hvalue
  have hle := hopened.fits
  have hlength := length_padded (lists v) n x
  by_cases hcut : n < (lists v).length
  · have hfront : (padded (lists v) n x).map some <+: cells := by
      rw [padded, Nat.sub_eq_zero_of_le hcut.le, List.replicate_zero, List.append_nil]
      exact ((List.take_prefix n _).map some).trans hopened.front
    have hfinal := hrefines.resized hopened hfront (by omega)
    rw [hlength] at hfinal
    refine ⟨_, (returns_self hopened.vector).bind ?_, hfinal⟩
    rw [toSize_natCast_small hsmall, if_pos hcut]
    exact returns_update hopened.vector _
  · have hcount : ((n : ℤ) - (lists v).length).toNat = n - (lists v).length := by omega
    have hpad : (padded (lists v) n x).map some =
        (lists v).map some ++ List.replicate (n - (lists v).length) (some x) := by
      rw [padded, List.take_of_length_le (by omega), List.map_append, List.map_replicate]
    have hfront : ∀ {buffer : List (Option α)}, (lists v).map some <+: buffer →
        (padded (lists v) n x).map some <+:
          overwrite buffer (lists v).length (List.replicate (n - (lists v).length) (some x)) := by
      intro buffer hbuffer
      have hnext := prefix_overwrite (List.replicate (n - (lists v).length) (some x)) hbuffer
      rwa [List.length_map, ← hpad] at hnext
    by_cases hroom : n < cells.length
    · have hfill := returns_fill hopened.buffer hvalue (lists v).length (n - (lists v).length)
        (by omega) (by omega)
      have hfinal := hrefines.inPlace hopened
        (length_overwrite (by rw [List.length_replicate]; omega)) (hfront hopened.front) (by omega)
      rw [hlength] at hfinal
      refine ⟨_, (returns_self hopened.vector).bind ?_, hfinal⟩
      rw [toSize_natCast_small hsmall, if_neg hcut, if_pos hroom,
        toInt_natCast_small hopened.small, hcount]
      exact hfill.bind (returns_update hopened.vector_withCells _)
    · obtain ⟨grown, hgrow, hneeded, hge, hbound⟩ :=
        returns_growCapacity hsmall hopened.vector hopened.capacity
      have hfits : (lists v).length ≤ grown := by omega
      have hcopy := hopened.returns_copy ⟨data, (lists v).length, grown⟩ hfits le_rfl
      rw [List.take_length] at hcopy
      have hbuffer : (moving s v (copied grown (lists v)) ⟨data, (lists v).length, grown⟩).heap.cellsAt
          (some s.heap.next) = some (copied grown (lists v)) := cellsAt_moving
      have hspace : (lists v).length + (n - (lists v).length) ≤ (copied grown (lists v)).length := by
        rw [length_copied hfits]
        omega
      have hfill := returns_fill hbuffer (denotes_moving hvalue) (lists v).length
        (n - (lists v).length) hspace (by omega)
      rw [moving_withCells] at hfill
      have hcells : (overwrite (copied grown (lists v)) (lists v).length
          (List.replicate (n - (lists v).length) (some x))).length = grown := by
        rw [length_overwrite (by rwa [List.length_replicate]), length_copied hfits]
      have hfinal := hrefines.moved hopened (by omega) (hfront (prefix_copied grown (lists v)))
        (by omega)
      rw [hcells, hlength] at hfinal
      refine ⟨_, (returns_self hopened.vector).bind ?_, hfinal⟩
      rw [toSize_natCast_small hsmall, if_neg hcut, if_neg hroom,
        toInt_natCast_small hopened.small, hcount]
      refine hgrow.bind ((returns_self (Store.vectors_withVector s)).bind
        ((hrefines.returns_newArray _).bind (hcopy.bind (hfill.bind
          (hopened.returns_release.bind ?_)))))
      exact (returns_update_moved _).bind (returns_update_moved _)

/-- The list with `ys` in front of position `p`. -/
def spliced (xs : List α) (p : ℕ) (ys : List α) : List α := xs.take p ++ ys ++ xs.drop p

omit [DecidableEq ι] in
theorem length_spliced (xs : List α) (p : ℕ) (ys : List α) :
    (spliced xs p ys).length = xs.length + ys.length := by
  simp only [spliced, List.length_append, List.length_take, List.length_drop]
  omega

omit [DecidableEq ι] in
theorem Opened.tail (hopened : Opened s v xs data cells) (p : ℕ) :
    (cells.drop p).take (xs.length - p) = (xs.drop p).map some := by
  rw [← List.drop_take, hopened.elements, List.map_drop]

omit [DecidableEq ι] in
theorem Opened.take (hopened : Opened s v xs data cells) {p : ℕ} (hp : p ≤ xs.length) :
    (xs.take p).map some = cells.take p := by
  rw [List.map_take, ← hopened.elements, List.take_take, min_eq_left hp]

omit [DecidableEq ι] in
theorem returns_distance {left right : ℕ} (hsmall : left < 2 ^ 31) (hsmall' : right < 2 ^ 31) :
    Returns (distance ⟨data, left⟩ ⟨data, right⟩) s ((left : ℤ) - right) s := by
  have hfits : FitsInt ((left : ℤ) - right) := ⟨by omega, by omega⟩
  rw [distance, if_pos rfl, toInt_eq_self hfits]
  exact returns_pure _ s

omit [DecidableEq ι] in
theorem Opened.returns_distance_begin (hopened : Opened s v xs data cells) {p : ℕ}
    (hp : p ≤ xs.length) :
    Returns (distance ⟨data, p⟩ (begin' ⟨data, xs.length, cells.length⟩)) s p s := by
  have hsmall : p < 2 ^ 31 := hp.trans_lt hopened.small
  have hdistance : Returns (distance ⟨data, p⟩ ⟨data, (0 : ℕ)⟩) s _ s :=
    returns_distance hsmall (by decide)
  rwa [Nat.cast_zero, sub_zero] at hdistance

/-- What both ways of inserting know about the result. -/
theorem map_spliced (xs : List α) (p n : ℕ) (x : α) :
    (spliced xs p (List.replicate n x)).map some =
      (xs.take p).map some ++ List.replicate n (some x) ++ (xs.drop p).map some := by
  simp [spliced]

theorem insert_inPlace (hrefines : Refines s lists) (hopened : Opened s v (lists v) data cells)
    (hvalue : Arg.Denotes s.heap data x value) {p n : ℕ} (hp : p ≤ (lists v).length)
    (hsmall : (lists v).length + n < 2 ^ 31) (hroom : (lists v).length + n ≤ cells.length) :
    ∃ s', Returns (insert v ⟨data, p⟩ n value) s ⟨(s'.vectors v).mData, p⟩ s' ∧
      Leads s lists v (spliced (lists v) p (List.replicate n x)) s' := by
  have hlength := length_spliced (lists v) p (List.replicate n x)
  rw [List.length_replicate] at hlength
  have hsize : toSize (((lists v).length : ℤ) + n) = (lists v).length + n := by
    exact_mod_cast toSize_natCast_small hsmall
  have hcount : (((lists v).length : ℤ) - p).toNat = (lists v).length - p := by omega
  have htail : ((lists v).drop p).length = (lists v).length - p := List.length_drop
  -- The elements from `p` on move up, and the copies fill the gap.
  have hshift := returns_shift_right hopened.buffer hp hroom hsmall
  rw [hopened.tail] at hshift
  have hshifted : (overwrite cells (p + n) (((lists v).drop p).map some)).length = cells.length :=
    length_overwrite (by rw [List.length_map]; omega)
  have hbuffer : (s.withCells data (overwrite cells (p + n)
      (((lists v).drop p).map some))).heap.cellsAt data = some _ :=
    ArrayHeap.cellsAt_replaceAt hopened.buffer hshifted
  have hfill := returns_fill_shifted hbuffer
    (hvalue.keeps (ArrayHeap.Keeps.replaceAt data s.heap _)) p n (by omega) (by omega)
  rw [Store.withCells_withCells] at hfill
  have hfront : (spliced (lists v) p (List.replicate n x)).map some <+:
      overwrite (overwrite cells (p + n) (((lists v).drop p).map some)) p
        (List.replicate n (some x)) := by
    rw [map_spliced, overwrite, List.length_replicate, take_overwrite (by omega) (by omega),
      drop_overwrite (by omega), hopened.take hp, List.append_assoc]
    simp only [← List.append_assoc]
    exact List.prefix_append ..
  have hcells : (overwrite (overwrite cells (p + n) (((lists v).drop p).map some)) p
      (List.replicate n (some x))).length = cells.length := by
    rw [length_overwrite (by rw [List.length_replicate]; omega), hshifted]
  have hfinal := hrefines.inPlace hopened hcells hfront (by omega)
  rw [hlength] at hfinal
  refine ⟨_, ?_, hfinal⟩
  rw [Store.vectors_withVector]
  refine (returns_self hopened.vector).bind ((hopened.returns_distance_begin hp).bind ?_)
  rw [hsize, if_pos hroom, toInt_natCast_small hopened.small, hcount]
  refine hshift.bind (hfill.bind ((returns_update hopened.vector_withCells _).bind ?_))
  dsimp only
  rw [hsize]
  exact returns_pure _ _

theorem insert_moved (hrefines : Refines s lists) (hopened : Opened s v (lists v) data cells)
    (hvalue : Arg.Denotes s.heap data x value) {p n : ℕ} (hp : p ≤ (lists v).length)
    (hsmall : (lists v).length + n < 2 ^ 31) (hroom : ¬ (lists v).length + n ≤ cells.length) :
    ∃ s', Returns (insert v ⟨data, p⟩ n value) s ⟨(s'.vectors v).mData, p⟩ s' ∧
      Leads s lists v (spliced (lists v) p (List.replicate n x)) s' := by
  have hlength := length_spliced (lists v) p (List.replicate n x)
  rw [List.length_replicate] at hlength
  have hsize : toSize (((lists v).length : ℤ) + n) = (lists v).length + n := by
    exact_mod_cast toSize_natCast_small hsmall
  obtain ⟨grown, hgrow, hneeded, -, hbound⟩ :=
    returns_growCapacity hsmall hopened.vector hopened.capacity
  have htake : ((lists v).take p).length = p := by
    rw [List.length_take]
    omega
  have hcopiedLength : (copied grown ((lists v).take p)).length = grown := length_copied (by omega)
  have hfits : p ≤ grown := by omega
  have hcopy := hopened.returns_copy ⟨data, (lists v).length, grown⟩ hfits hp
  have hbuffer : (moving s v (copied grown ((lists v).take p))
      ⟨data, (lists v).length, grown⟩).heap.cellsAt (some s.heap.next) = some _ := cellsAt_moving
  have hfill := returns_fill_shifted hbuffer (denotes_moving hvalue) p n (by omega) (by omega)
  rw [moving_withCells] at hfill
  have hfront := prefix_overwrite (List.replicate n (some x))
    (prefix_copied grown ((lists v).take p))
  rw [List.length_map, htake] at hfront
  have hfilled : (overwrite (copied grown ((lists v).take p)) p
      (List.replicate n (some x))).length = grown := by
    rw [length_overwrite (by rw [List.length_replicate]; omega), hcopiedLength]
  have hbuffer' : (moving s v (overwrite (copied grown ((lists v).take p)) p
      (List.replicate n (some x))) ⟨data, (lists v).length, grown⟩).heap.cellsAt
      (some s.heap.next) = some _ := cellsAt_moving
  have htail := returns_copy_shifted hbuffer' hopened.cellsAt_moving_old
    (fun _ heq => hopened.ne_new heq.symm) hp (by omega) hsmall hopened.fits
  rw [moving_withCells, hopened.tail] at htail
  have hfront' := prefix_overwrite (((lists v).drop p).map some) hfront
  rw [List.length_append, List.length_map, htake, List.length_replicate, ← map_spliced] at hfront'
  have hcells : (overwrite (overwrite (copied grown ((lists v).take p)) p
      (List.replicate n (some x))) (p + n) (((lists v).drop p).map some)).length = grown := by
    rw [length_overwrite (by rw [List.length_map, List.length_drop]; omega), hfilled]
  have hfinal := hrefines.moved hopened (by omega) hfront' (by omega)
  rw [hcells, hlength] at hfinal
  refine ⟨_, ?_, hfinal⟩
  rw [vectors_moved]
  refine (returns_self hopened.vector).bind ((hopened.returns_distance_begin hp).bind ?_)
  rw [hsize, if_neg hroom, Int.toNat_natCast, toSize_natCast_small (by omega)]
  refine hgrow.bind ((returns_self (Store.vectors_withVector s)).bind
    ((hrefines.returns_newArray _).bind (hcopy.bind (hfill.bind (htail.bind
      (hopened.returns_release.bind ((returns_update_moved _).bind ?_)))))))
  rw [← hsize]
  exact (returns_update_moved _).bind (returns_pure _ _)

theorem insert_leads (hrefines : Refines s lists)
    (hvalue : Arg.Denotes s.heap (s.vectors v).mData x value) {p n : ℕ}
    (hp : p ≤ (lists v).length) (hsmall : (lists v).length + n < 2 ^ 31) :
    ∃ s', Returns (insert v ⟨(s.vectors v).mData, p⟩ n value) s ⟨(s'.vectors v).mData, p⟩ s' ∧
      Leads s lists v (spliced (lists v) p (List.replicate n x)) s' := by
  obtain ⟨data, cells, hopened⟩ := hrefines.opened v
  rw [hopened.vector] at hvalue ⊢
  by_cases hroom : (lists v).length + n ≤ cells.length
  · exact insert_inPlace hrefines hopened hvalue hp hsmall hroom
  · exact insert_moved hrefines hopened hvalue hp hsmall hroom

theorem erase_leads (hrefines : Refines s lists) {p : ℕ} (hp : p < (lists v).length) :
    ∃ s', Returns (erase v ⟨(s.vectors v).mData, p⟩) s ⟨(s'.vectors v).mData, p⟩ s' ∧
      Leads s lists v ((lists v).eraseIdx p) s' := by
  obtain ⟨data, cells, hopened⟩ := hrefines.opened v
  rw [hopened.vector]
  have hle := hopened.fits
  have hsmall := hopened.small
  have hlength : ((lists v).eraseIdx p).length = (lists v).length - 1 :=
    List.length_eraseIdx_of_lt hp
  have hsize : toSize (((lists v).length : ℤ) - 1) = (lists v).length - 1 := by
    rw [show ((lists v).length : ℤ) - 1 = ((lists v).length - 1 : ℕ) by omega]
    exact toSize_natCast_small (by omega)
  have hend : (⟨data, p⟩ : Iterator) ≠ end' ⟨data, (lists v).length, cells.length⟩ := by
    intro heq
    have hoffset : (p : ℤ) = (lists v).length := congrArg Iterator.offset heq
    omega
  have hdistance : Returns (distance (end' ⟨data, (lists v).length, cells.length⟩) ⟨data, p⟩) s
      (((lists v).length : ℤ) - p) s := returns_distance hopened.small (by omega)
  by_cases hlast : p = (lists v).length - 1
  · have hfront : ((lists v).eraseIdx p).map some <+: cells := by
      rw [List.eraseIdx_eq_take_drop_succ, List.drop_of_length_le (by omega), List.append_nil]
      exact ((List.take_prefix p _).map some).trans hopened.front
    have hfinal := hrefines.resized hopened hfront (by omega)
    rw [hlength] at hfinal
    refine ⟨_, (returns_self hopened.vector).bind ?_, hfinal⟩
    rw [if_neg hend, Store.vectors_withVector]
    refine hdistance.bind ?_
    rw [if_pos (by omega)]
    refine (returns_update hopened.vector _).bind
      ((returns_self (Store.vectors_withVector s)).bind ?_)
    dsimp only
    rw [hsize, hlast]
    exact returns_pure _ _
  · have hshift := returns_shift_left hopened.buffer (show p ≤ (lists v).length - 1 by omega)
      (by omega) (by omega)
    have hmoved : (cells.drop (p + 1)).take ((lists v).length - 1 - p) =
        ((lists v).drop (p + 1)).map some := by
      rw [← hopened.tail]
      congr 1
      omega
    rw [hmoved] at hshift
    have hfront : ((lists v).eraseIdx p).map some <+:
        overwrite cells p (((lists v).drop (p + 1)).map some) := by
      have hnext := prefix_overwrite (((lists v).drop (p + 1)).map some)
        (((List.take_prefix p (lists v)).map some).trans hopened.front)
      rwa [List.length_map, List.length_take, min_eq_left hp.le, ← List.map_append,
        ← List.eraseIdx_eq_take_drop_succ] at hnext
    have hcells : (overwrite cells p (((lists v).drop (p + 1)).map some)).length = cells.length :=
      length_overwrite (by rw [List.length_map, List.length_drop]; omega)
    have hfinal := hrefines.inPlace hopened hcells hfront (by omega)
    rw [hlength] at hfinal
    refine ⟨_, (returns_self hopened.vector).bind ?_, hfinal⟩
    rw [if_neg hend, Store.vectors_withVector]
    refine hdistance.bind ?_
    rw [if_neg (by omega)]
    refine (hopened.returns_distance_begin hp.le).bind ?_
    rw [hsize, toSize_natCast_small (by omega)]
    refine hshift.bind ((returns_update hopened.vector_withCells _).bind ?_)
    dsimp only
    rw [hsize]
    exact returns_pure _ _

end MyVector

end CppProjects
