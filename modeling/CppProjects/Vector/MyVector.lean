import CppProjects.Core.ArrayHeap
import CppProjects.Core.Program

/-!
# `myVector`

The growable array of `vector/version02`.  Several vectors share a heap of
arrays.  Sizes and capacities are `size_t`, parameters and loop indices are
`int`, and a conversion stands wherever the source has one.
-/

namespace CppProjects

open CInt Program

/-- The fields of a `myVector`; `mData` is `none` for `nullptr`. -/
structure MyVector where
  mData : Option ℕ
  mSize : ℕ
  mCapacity : ℕ
deriving DecidableEq, Repr

namespace MyVector

inductive Failure
  | badAlloc
  | outOfRange
deriving DecidableEq, Repr

/-- The vectors by name and the arrays they use.  A slot is `none` until it is
first assigned.  `refuses` says which allocations fail, by the address they
would return. -/
structure Store (ι α : Type) where
  heap : ArrayHeap (Option α)
  vectors : ι → MyVector
  refuses : ℕ → Bool

abbrev M (ι α : Type) := Program Failure (Store ι α)

/-- A pointer into an array, as `vectorIterator` holds it. -/
structure Iterator where
  block : Option ℕ
  offset : ℤ
deriving DecidableEq, Repr

/-- A `const T &` argument: a temporary, or a slot of an array. -/
inductive Arg (α : Type)
  | temp (value : α)
  | slot (block : Option ℕ) (index : ℤ)

variable {ι α : Type}

/-! ## Memory -/

/-- `new T[n]`. -/
def newArray (n : ℕ) : M ι α ℕ := do
  let s ← get
  if s.refuses s.heap.next then throw .badAlloc
  else
    set { s with heap := s.heap.alloc (List.replicate n none) }
    return s.heap.next

/-- `delete []data`. -/
def deleteArray (addr : ℕ) : M ι α Unit := do
  let s ← get
  if (s.heap.arrays addr).isSome then set { s with heap := s.heap.free addr } else undefined

/-- `data[i]`. -/
def load (data : Option ℕ) (i : ℤ) : M ι α (Option α) := do
  let s ← get
  defined (s.heap.readAt data i)

/-- `data[i] = value`. -/
def store (data : Option ℕ) (i : ℤ) (value : Option α) : M ι α Unit := do
  let s ← get
  let heap ← defined (s.heap.writeAt data i value)
  set { s with heap := heap }

/-- `std::memmove(data + target, data + source, count * sizeof(T))`. -/
def memmove (data : Option ℕ) (target source : ℤ) (count : ℕ) : M ι α Unit := do
  let s ← get
  let heap ← defined (s.heap.moveAt data target source count)
  set { s with heap := heap }

/-- The value an argument has now. -/
def Arg.get : Arg α → M ι α (Option α)
  | .temp value => pure (some value)
  | .slot block index => load block index

def self (v : ι) : M ι α MyVector := do
  let s ← get
  return s.vectors v

variable [DecidableEq ι]

def update (v : ι) (f : MyVector → MyVector) : M ι α Unit :=
  modify fun s => { s with vectors := Function.update s.vectors v (f (s.vectors v)) }

/-- `if (m_data != nullptr) { delete []m_data; m_data = nullptr; }`. -/
def release (v : ι) : M ι α Unit := do
  let this ← self v
  match this.mData with
  | none => pure ()
  | some addr =>
      deleteArray addr
      update v fun this => { this with mData := none }

/-- The same with size and capacity reset, as `assign` does it. -/
def discard (v : ι) : M ι α Unit := do
  let this ← self v
  match this.mData with
  | none => pure ()
  | some _ =>
      release v
      update v fun this => { this with mSize := 0, mCapacity := 0 }

/-! ## Capacity -/

/-- `m_capacity = 1` for zero, else `m_capacity *= 2`. -/
def doubled (capacity : ℕ) : ℕ := if capacity = 0 then 1 else toSize (capacity * 2)

/-- The loop that doubles until `needed` is reached.  There are `2 ^ 64` values
of `size_t`, so that a loop that takes more steps never ends. -/
def growTo (needed : ℕ) : ℕ → ℕ → Option ℕ
  | 0, _ => none
  | fuel + 1, capacity =>
      if capacity < needed then growTo needed fuel (doubled capacity) else some capacity

def growCapacity (v : ι) (needed : ℕ) : M ι α Unit := do
  let this ← self v
  let capacity ← defined (growTo needed (2 ^ 64 + 1) this.mCapacity)
  update v fun this => { this with mCapacity := capacity }

/-! ## Iterators -/

def begin' (this : MyVector) : Iterator := ⟨this.mData, 0⟩

def end' (this : MyVector) : Iterator := ⟨this.mData, this.mSize⟩

/-- `left - right`, an `int`. -/
def distance (left right : Iterator) : M ι α ℤ :=
  if left.block = right.block then pure (toInt (left.offset - right.offset)) else undefined

/-! ## Operations -/

def pushBack (v : ι) (value : Arg α) : M ι α Unit := do
  let this ← self v
  if this.mSize < this.mCapacity then
    store this.mData this.mSize (← value.get)
    update v fun this => { this with mSize := toSize (this.mSize + 1) }
  else
    update v fun this => { this with mCapacity := doubled this.mCapacity }
    let data ← newArray (doubled this.mCapacity)
    forUp (fun i => do store data i (← load this.mData i)) 0 this.mSize
    release v
    update v fun this => { this with mData := some data }
    store data this.mSize (← value.get)
    update v fun this => { this with mSize := toSize (this.mSize + 1) }

def popBack (v : ι) : M ι α Unit := do
  let this ← self v
  if 0 < this.mSize then update v fun this => { this with mSize := this.mSize - 1 }
  else pure ()

def assign (v : ι) (n : ℤ) (val : Arg α) : M ι α Unit := do
  let this ← self v
  if toSize n ≤ this.mCapacity then
    forUp (fun i => do store this.mData i (← val.get)) 0 n.toNat
    update v fun this => { this with mSize := toSize n }
  else
    discard v
    growCapacity v (toSize n)
    let data ← newArray (← self v).mCapacity
    update v fun this => { this with mData := some data }
    forUp (fun i => do store data i (← val.get)) 0 n.toNat
    update v fun this => { this with mSize := toSize n }

/-- The temporaries for the size and the capacity are `int`s. -/
def swap (v w : ι) : M ι α Unit :=
  if v = w then pure ()
  else do
    let other ← self w
    let this ← self v
    update w fun _ => this
    update v fun _ =>
      ⟨other.mData, toSize (toInt other.mSize), toSize (toInt other.mCapacity)⟩

def resize (v : ι) (n : ℤ) (val : Arg α) : M ι α Unit := do
  let this ← self v
  if toSize n < this.mSize then
    update v fun this => { this with mSize := toSize n }
  else if toSize n < this.mCapacity then
    forUp (fun i => do store this.mData i (← val.get))
      (toInt this.mSize) (n - toInt this.mSize).toNat
    update v fun this => { this with mSize := toSize n }
  else
    growCapacity v (toSize n)
    let data ← newArray (← self v).mCapacity
    forUp (fun i => do store data i (← load this.mData i)) 0 this.mSize
    forUp (fun i => do store data i (← val.get))
      (toInt this.mSize) (n - toInt this.mSize).toNat
    release v
    update v fun this => { this with mSize := toSize n }
    update v fun this => { this with mData := some data }

def reserve (v : ι) (n : ℤ) : M ι α Unit := do
  let this ← self v
  if toSize n < this.mCapacity then pure ()
  else
    growCapacity v (toSize n)
    let data ← newArray (← self v).mCapacity
    forUp (fun i => do store data i (← load this.mData i)) 0 this.mSize
    release v
    update v fun this => { this with mData := some data }

def insert (v : ι) (pos : Iterator) (n : ℤ) (value : Arg α) : M ι α Iterator := do
  let this ← self v
  let size ← distance pos this.begin'
  if toSize (this.mSize + n) ≤ this.mCapacity then
    forDown (fun i => do
      let target ← intExpr (i + n)
      store this.mData (target - 1) (← load this.mData (i - 1)))
      (toInt this.mSize) (toInt this.mSize - size).toNat
    forUp (fun i => do
      let target ← intExpr (i + size)
      store this.mData target (← value.get)) 0 n.toNat
    update v fun this => { this with mSize := toSize (this.mSize + n) }
    return ⟨this.mData, size⟩
  else
    growCapacity v (toSize (this.mSize + n))
    let data ← newArray (← self v).mCapacity
    forUp (fun i => do store data i (← load this.mData i)) 0 size.toNat
    forUp (fun i => do
      let target ← intExpr (i + size)
      store data target (← value.get)) 0 n.toNat
    forUp (fun i => do
      let target ← intExpr (i + n)
      store data target (← load this.mData i)) size (this.mSize - toSize size)
    release v
    update v fun this => { this with mData := some data }
    update v fun this => { this with mSize := toSize (this.mSize + n) }
    return ⟨some data, size⟩

def erase (v : ι) (pos : Iterator) : M ι α Iterator := do
  let this ← self v
  if pos = this.end' then throw .outOfRange
  else if (← distance this.end' pos) = 1 then
    update v fun this => { this with mSize := toSize (this.mSize - 1) }
    return (← self v).end'
  else
    let size ← distance pos this.begin'
    forUp (fun i => do
      let source ← intExpr (i + 1)
      store this.mData i (← load this.mData source))
      size (toSize (this.mSize - 1) - toSize size)
    update v fun this => { this with mSize := toSize (this.mSize - 1) }
    return pos

/-- `erase(first, last)`; `basic` is what `is_basic_type()` says of the element type. -/
def eraseRange (basic : Bool) (v : ι) (first last : Iterator) : M ι α Iterator := do
  let this ← self v
  let f ← distance first this.begin'
  let l ← distance last this.begin'
  let n ← distance last first
  if basic then memmove this.mData f l (toSize (this.mSize - l))
  else
    forUp (fun i => do
      let target ← intExpr (f + i)
      let source ← intExpr (l + i)
      store this.mData target (← load this.mData source)) 0 (toSize (this.mSize - l))
  update v fun this => { this with mSize := toSize (this.mSize - n) }
  return first

def clear (v : ι) : M ι α Unit := update v fun this => { this with mSize := 0 }

/-- `(*this)[index] = value`. -/
def setElement (v : ι) (index : ℤ) (value : Arg α) : M ι α Unit := do
  let this ← self v
  if index < 0 ∨ this.mSize ≤ toSize index then throw .outOfRange
  else store this.mData index (← value.get)

/-- The copy constructor and the copy assignment, as the compiler generates them. -/
def copy (v other : ι) : M ι α Unit := do
  let that ← self other
  update v fun _ => that

/-- `~myVector()`. -/
def destroy (v : ι) : M ι α Unit := do
  let this ← self v
  match this.mData with
  | none => pure ()
  | some addr => deleteArray addr
  update v fun this => { this with mSize := 0, mCapacity := 0 }

end MyVector

end CppProjects
