import CppProjects.Core.ArrayHeap
import CppProjects.Core.Program

/-!
# `vector`

The growable array of `vector/version03`, over an allocator.  Storage and the objects
in it are apart: a slot is raw until an object is constructed in it.

Which allocator a buffer came from is not recorded.
-/

namespace CppProjects

open CInt Program

/-- What is in a slot; an object that was moved from has no value. -/
inductive Slot (α : Type)
  | raw
  | moved
  | full (value : α)
deriving DecidableEq, Repr

def Slot.isRaw {α : Type} : Slot α → Bool
  | .raw => true
  | .moved | .full _ => false

/-- The fields of a `vector`; `data` is `none` for `nullptr`. -/
structure CppVector where
  alloc : ℕ
  data : Option ℕ
  size : ℕ
  capacity : ℕ
deriving DecidableEq, Repr

namespace CppVector

inductive Failure
  | badAlloc
  | lengthError
deriving DecidableEq, Repr

/-- What `std::allocator_traits` says of the allocator. -/
structure AllocatorTraits where
  maxSize : ℕ
  onCopyConstruction : ℕ → ℕ
  propagateOnCopy : Bool
  propagateOnMove : Bool
  propagateOnSwap : Bool

/-- The vectors by name and their buffers.  `refuses` says which allocations fail, by the
address they would return, and `lost` counts the objects whose storage was used again or
released before they were destroyed. -/
structure Store (ι α : Type) where
  heap : ArrayHeap (Slot α)
  vectors : ι → CppVector
  traits : AllocatorTraits
  refuses : ℕ → Bool
  lost : ℕ

abbrev M (ι α : Type) := Program Failure (Store ι α)

/-- A pointer into a buffer. -/
structure Iterator where
  block : Option ℕ
  offset : ℕ
deriving DecidableEq, Repr

/-- A `const T &` argument: a temporary, or a slot of a buffer. -/
inductive Arg (α : Type)
  | temp (value : α)
  | slot (block : Option ℕ) (index : ℕ)

variable {ι α : Type}

/-! ## Slots -/

def readSlot (data : Option ℕ) (i : ℕ) : M ι α (Slot α) := do
  let s ← get
  defined (s.heap.readAt data i)

def writeSlot (data : Option ℕ) (i : ℕ) (slot : Slot α) : M ι α Unit := do
  let s ← get
  let heap ← defined (s.heap.writeAt data i slot)
  set { s with heap := heap }

/-- The value of the object in a slot. -/
def valueAt (data : Option ℕ) (i : ℕ) : M ι α α := do
  match ← readSlot data i with
  | .full value => pure value
  | .raw | .moved => undefined

/-- `std::move(data[i])`, as something else is made of it. -/
def moveFrom (data : Option ℕ) (i : ℕ) : M ι α α := do
  let value ← valueAt data i
  writeSlot data i .moved
  return value

/-- `construct(data + i, value)`; an object that is there is not destroyed. -/
def construct (data : Option ℕ) (i : ℕ) (value : α) : M ι α Unit := do
  let old ← readSlot data i
  writeSlot data i (.full value)
  modify fun s => { s with lost := s.lost + if old.isRaw then 0 else 1 }

/-- `data[i] = value`, for an object that is there. -/
def assignSlot (data : Option ℕ) (i : ℕ) (value : α) : M ι α Unit := do
  match ← readSlot data i with
  | .raw => undefined
  | .moved | .full _ => writeSlot data i (.full value)

/-- `std::destroy_at(data + i)`. -/
def destroyAt (data : Option ℕ) (i : ℕ) : M ι α Unit := do
  match ← readSlot data i with
  | .raw => undefined
  | .moved | .full _ => writeSlot data i .raw

/-- The value an argument has now. -/
def Arg.get : Arg α → M ι α α
  | .temp value => pure value
  | .slot block index => valueAt block index

/-! ## Buffers -/

/-- `allocate(n)`.  No object is larger than a `ptrdiff_t` can say. -/
def allocate (n : ℕ) : M ι α ℕ := do
  let s ← get
  if s.traits.maxSize < n then throw .lengthError
  else if 2 ^ 63 ≤ n ∨ s.refuses s.heap.next then throw .badAlloc
  else
    set { s with heap := s.heap.alloc (List.replicate n .raw) }
    return s.heap.next

/-- `deallocate(p, n)`, with the `n` of its allocation. -/
def deallocate (p : Option ℕ) (n : ℕ) : M ι α Unit :=
  match p with
  | none => pure ()
  | some addr => do
      let s ← get
      let cells ← defined (s.heap.arrays addr)
      if cells.length = n then
        set { s with
          heap := s.heap.free addr
          lost := s.lost + cells.countP fun slot : Slot α => !slot.isRaw }
      else undefined

def self (v : ι) : M ι α CppVector := do
  let s ← get
  return s.vectors v

variable [DecidableEq ι]

def update (v : ι) (f : CppVector → CppVector) : M ι α Unit :=
  modify fun s => { s with vectors := Function.update s.vectors v (f (s.vectors v)) }

/-- The elements move to a new buffer, and the old one is released. -/
def relocate (this : CppVector) (newData : ℕ) : M ι α Unit :=
  match this.data with
  | none => pure ()
  | some _ => do
      forEach (fun k => do construct (some newData) k (← moveFrom this.data k)) 0 this.size
      forEach (destroyAt this.data) 0 this.size
      deallocate this.data this.capacity

/-- `reallocate(new_capacity)`. -/
def reallocate (v : ι) (newCapacity : ℕ) : M ι α Unit := do
  let newData ← allocate newCapacity
  relocate (← self v) newData
  update v fun this => { this with data := some newData, capacity := newCapacity }

/-! ## Iterators -/

def begin' (this : CppVector) : Iterator := ⟨this.data, 0⟩

def end' (this : CppVector) : Iterator := ⟨this.data, this.size⟩

/-- `assert(pos >= begin() && pos <= end())`, for a pointer into the vector. -/
def assertWithin (this : CppVector) (pos : Iterator) : M ι α Unit :=
  if pos.block = this.data ∧ pos.offset ≤ this.size then pure () else undefined

/-! ## Capacity -/

/-- `capacity_ == 0 ? 1 : capacity_ * 2`. -/
def doubled (capacity : ℕ) : ℕ := if capacity = 0 then 1 else toSize (capacity * 2)

def growIfFull (v : ι) : M ι α Unit := do
  let this ← self v
  if this.capacity ≤ this.size then reallocate v (doubled this.capacity) else pure ()

def reserve (v : ι) (newCapacity : ℕ) : M ι α Unit := do
  let this ← self v
  if this.capacity < newCapacity then reallocate v newCapacity else pure ()

def shrinkToFit (v : ι) : M ι α Unit := do
  let this ← self v
  if this.size < this.capacity then reallocate v this.size else pure ()

/-! ## Modifiers -/

def clear (v : ι) : M ι α Unit := do
  let this ← self v
  match this.data with
  | none => pure ()
  | some _ =>
      forEach (destroyAt this.data) 0 this.size
      update v fun this => { this with size := 0 }

/-- A new element in the slot behind the last one. -/
def appendElement (v : ι) (arg : Arg α) : M ι α Iterator := do
  let this ← self v
  construct this.data this.size (← arg.get)
  update v fun this => { this with size := toSize (this.size + 1) }
  return ⟨this.data, this.size⟩

/-- `emplace_back(value)`, with the element it returns. -/
def emplaceBack (v : ι) (arg : Arg α) : M ι α Iterator := do
  growIfFull v
  appendElement v arg

def pushBack (v : ι) (value : Arg α) : M ι α Unit := do
  let _ ← emplaceBack v value

/-- The elements from `pos` on move one place to the right, and the object at `pos` is
destroyed. -/
def openGap (this : CppVector) (pos : ℕ) : M ι α Unit := do
  construct this.data this.size (← moveFrom this.data (this.size - 1))
  forEachDown (fun k => do assignSlot this.data (k + 1) (← moveFrom this.data k)) pos
    (this.size - 1 - pos)
  destroyAt this.data pos

/-- A new element before another one. -/
def insertElement (v : ι) (pos : ℕ) (arg : Arg α) : M ι α Iterator := do
  let this ← self v
  openGap this pos
  construct this.data pos (← arg.get)
  update v fun this => { this with size := toSize (this.size + 1) }
  return ⟨this.data, pos⟩

/-- `emplace(pos, value)`. -/
def emplace (v : ι) (pos : Iterator) (arg : Arg α) : M ι α Iterator := do
  let this ← self v
  assertWithin this pos
  if pos.offset = this.size then emplaceBack v arg
  else do
    growIfFull v
    insertElement v pos.offset arg

def insert (v : ι) (pos : Iterator) (value : Arg α) : M ι α Iterator := emplace v pos value

/-- `erase(pos)`. -/
def erase (v : ι) (pos : Iterator) : M ι α Iterator := do
  let this ← self v
  assertWithin this pos
  if pos.offset = this.size then undefined
  else do
    forEach (fun k => do assignSlot this.data k (← moveFrom this.data (k + 1))) pos.offset
      (this.size - 1 - pos.offset)
    update v fun this => { this with size := this.size - 1 }
    destroyAt this.data (this.size - 1)
    return pos

/-- `erase(first, last)`. -/
def eraseRange (v : ι) (first last : Iterator) : M ι α Iterator := do
  let this ← self v
  assertWithin this last
  if first.block = last.block ∧ first.offset ≤ last.offset then
    if first = last then return first
    else do
      forEach (fun k => do
        assignSlot this.data k (← moveFrom this.data (k + (last.offset - first.offset)))) first.offset
        (this.size - last.offset)
      forEach (destroyAt this.data) (first.offset + (this.size - last.offset))
        (last.offset - first.offset)
      update v fun this => { this with size := this.size - (last.offset - first.offset) }
      return first
  else undefined

def popBack (v : ι) : M ι α Unit := do
  let this ← self v
  if 0 < this.size then do
    update v fun this => { this with size := this.size - 1 }
    destroyAt this.data (this.size - 1)
  else pure ()

/-- The new elements of a longer vector. -/
def fillUp (v : ι) (newSize : ℕ) (value : Arg α) : M ι α Unit := do
  let this ← self v
  forEach (fun k => do construct this.data k (← value.get)) this.size (newSize - this.size)

def resize (v : ι) (newSize : ℕ) (value : Arg α) : M ι α Unit := do
  let this ← self v
  if this.size < newSize then do
    reserve v newSize
    fillUp v newSize value
    update v fun this => { this with size := newSize }
  else if newSize < this.size then do
    forEach (destroyAt this.data) newSize (this.size - newSize)
    update v fun this => { this with size := newSize }
  else update v fun this => { this with size := newSize }

def swap (v w : ι) : M ι α Unit := do
  let s ← get
  let this ← self v
  let other ← self w
  let swapAlloc := s.traits.propagateOnSwap
  update v fun _ => { other with alloc := if swapAlloc then other.alloc else this.alloc }
  update w fun _ => { this with alloc := if swapAlloc then this.alloc else other.alloc }

/-! ## Construction, assignment and destruction -/

/-- `vector(alloc)`. -/
def create (v : ι) (alloc : ℕ) : M ι α Unit := update v fun _ => ⟨alloc, none, 0, 0⟩

/-- A buffer for the elements that a constructor is given. -/
def newBuffer (v : ι) (alloc n : ℕ) : M ι α Unit :=
  if n = 0 then update v fun _ => ⟨alloc, none, 0, 0⟩
  else do
    let data ← allocate n
    update v fun _ => ⟨alloc, some data, n, n⟩

/-- `vector(count, value, alloc)`. -/
def createFilled (v : ι) (count : ℕ) (value : Arg α) (alloc : ℕ) : M ι α Unit := do
  newBuffer v alloc count
  let this ← self v
  forEach (fun k => do construct this.data k (← value.get)) 0 count

/-- `vector(init, alloc)`. -/
def createFrom (v : ι) (init : List α) (alloc : ℕ) : M ι α Unit := do
  newBuffer v alloc init.length
  let this ← self v
  forEach (fun k => do construct this.data k (← defined init[k]?)) 0 init.length

/-- `std::uninitialized_copy(other.data_, other.data_ + other.size_, data_)`. -/
def copyElements (data : Option ℕ) (other : CppVector) : M ι α Unit :=
  forEach (fun k => do construct data k (← valueAt other.data k)) 0 other.size

/-- `vector(const vector &)`. -/
def copyConstruct (v w : ι) : M ι α Unit := do
  let s ← get
  let other ← self w
  newBuffer v (s.traits.onCopyConstruction other.alloc) other.size
  copyElements (← self v).data other

/-- `vector(vector &&)`. -/
def moveConstruct (v w : ι) : M ι α Unit := do
  let other ← self w
  update w fun other => { other with data := none, size := 0, capacity := 0 }
  update v fun _ => other

/-- `clear(); deallocate(data_, capacity_);` -/
def release (v : ι) : M ι α Unit := do
  clear v
  let this ← self v
  deallocate this.data this.capacity

/-- A different allocator is taken over, with nothing that came from the old one. -/
def takeAllocator (v : ι) (alloc : ℕ) : M ι α Unit := do
  let this ← self v
  if this.alloc ≠ alloc then do
    release v
    update v fun this => { this with alloc := alloc, data := none, capacity := 0 }
  else pure ()

def copyAllocator (v : ι) (alloc : ℕ) : M ι α Unit := do
  let s ← get
  if s.traits.propagateOnCopy then takeAllocator v alloc else pure ()

def moveAllocator (v : ι) (alloc : ℕ) : M ι α Unit := do
  let s ← get
  if s.traits.propagateOnMove then update v fun this => { this with alloc := alloc } else pure ()

/-- Room for the elements of another vector. -/
def makeRoom (v : ι) (n : ℕ) : M ι α Unit := do
  let this ← self v
  if this.capacity < n then do
    release v
    let data ← allocate n
    update v fun this => { this with data := some data, capacity := n }
  else pure ()

/-- `operator=(const vector &)`. -/
def copyAssign (v w : ι) : M ι α Unit :=
  if v = w then pure ()
  else do
    let other ← self w
    copyAllocator v other.alloc
    makeRoom v other.size
    update v fun this => { this with size := other.size }
    copyElements (← self v).data other

/-- `operator=(vector &&)`. -/
def moveAssign (v w : ι) : M ι α Unit :=
  if v = w then pure ()
  else do
    let other ← self w
    moveAllocator v other.alloc
    release v
    update v fun this =>
      { this with data := other.data, size := other.size, capacity := other.capacity }
    update w fun other => { other with data := none, size := 0, capacity := 0 }

/-- `~vector()`. -/
def destroy (v : ι) : M ι α Unit := release v

end CppVector

end CppProjects
