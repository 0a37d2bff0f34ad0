import CppProjects.Core.LinkedHeap
import CppProjects.Core.Program

/-!
# `List`

The doubly linked list of `list`.  Several lists share a heap of nodes, and a
pointer is followed only to a node that has not been deleted.  `new` always
finds memory.
-/

namespace CppProjects

open CInt Program

/-- The fields of a `List`; `none` is `nullptr`. -/
structure LinkedList where
  mHead : Option ℕ
  mTail : Option ℕ
  mSize : ℤ
deriving DecidableEq, Repr

namespace LinkedList

inductive Failure
  | outOfRange
deriving DecidableEq, Repr

/-- The lists by name and the nodes they use. -/
structure Store (ι α : Type) where
  heap : LinkedHeap α
  lists : ι → LinkedList

abbrev M (ι α : Type) := Program Failure (Store ι α)

/-- The pointer in a `ListIterator`, unless it was never initialised. -/
structure Iterator where
  mPointer : Option (Option ℕ)
deriving DecidableEq, Repr

/-- A `const T &` argument: a temporary, or the value in a node. -/
inductive Arg (α : Type)
  | temp (value : α)
  | node (addr : ℕ)
deriving DecidableEq, Repr

/-- A loop that takes more steps than there are values of `int` is one that does
not end. -/
def maxSteps : ℕ := 2 ^ 32

variable {ι α : Type}

/-! ## Memory -/

/-- The value an argument has now. -/
def Arg.fetch : Arg α → M ι α α
  | .temp value => pure value
  | .node addr => do
      let s ← get
      defined (s.heap.valueAt addr)

/-- `new Node(value)`. -/
def newNode (value : Arg α) : M ι α (Option ℕ) := do
  let x ← value.fetch
  let s ← get
  set { s with heap := s.heap.alloc x }
  return some s.heap.top

/-- `*p`. -/
def deref (p : Option ℕ) : M ι α (LinkedNode α) := do
  let s ← get
  defined (p.bind s.heap.nodes)

/-- A change of `*p`. -/
def assignTo (p : Option ℕ) (write : LinkedHeap α → ℕ → LinkedHeap α) : M ι α Unit := do
  let s ← get
  let addr ← defined p
  if (s.heap.nodes addr).isSome then set { s with heap := write s.heap addr } else undefined

/-- `p -> m_prev = q`. -/
def setPrev (p q : Option ℕ) : M ι α Unit := assignTo p fun heap addr => heap.setPrev addr q

/-- `p -> m_next = q`. -/
def setNext (p q : Option ℕ) : M ι α Unit := assignTo p fun heap addr => heap.setNext addr q

/-- `delete p`. -/
def delete : Option ℕ → M ι α Unit
  | none => pure ()
  | some addr => assignTo (some addr) LinkedHeap.free

def self (v : ι) : M ι α LinkedList := do
  let s ← get
  return s.lists v

/-! ## Iterators -/

/-- `left == right`. -/
def Iterator.same (left right : Iterator) : M ι α Bool := do
  let p ← defined left.mPointer
  let q ← defined right.mPointer
  return p = q

/-- `++it`. -/
def Iterator.advance (it : Iterator) : M ι α Iterator := do
  let p ← defined it.mPointer
  let node ← deref p
  return ⟨some node.next⟩

/-- `it + n`. -/
def Iterator.plus (it : Iterator) : ℕ → M ι α Iterator
  | 0 => pure it
  | n + 1 => do
      let it ← it.advance
      it.plus n

def begin' (v : ι) : M ι α Iterator := do
  let this ← self v
  return ⟨some this.mHead⟩

def end' (v : ι) : M ι α Iterator := do
  let this ← self v
  if this.mSize = 0 then return ⟨none⟩
  else
    let tail ← deref this.mTail
    return ⟨some tail.next⟩

/-! ## Elements -/

def front (v : ι) : M ι α α := do
  let this ← self v
  if this.mSize = 0 then throw .outOfRange
  else
    let first ← deref this.mHead
    return first.value

def back (v : ι) : M ι α α := do
  let this ← self v
  if this.mSize = 0 then throw .outOfRange
  else
    let last ← deref this.mTail
    return last.value

def find [DecidableEq α] (v : ι) (value : Arg α) : M ι α Iterator := do
  let this ← self v
  let pointer ← loop (fun pointer => do
    if pointer = none then return none
    else
      let node ← deref pointer
      if node.value = (← value.fetch) then return none
      else return some node.next) maxSteps this.mHead
  return ⟨some pointer⟩

/-! ## Fields -/

variable [DecidableEq ι]

def update (v : ι) (f : LinkedList → LinkedList) : M ι α Unit :=
  modify fun s => { s with lists := Function.update s.lists v (f (s.lists v)) }

/-- `m_size += n`. -/
def addSize (v : ι) (n : ℤ) : M ι α Unit := do
  let this ← self v
  let size ← intExpr (this.mSize + n)
  update v fun this => { this with mSize := size }

/-! ## Both ends -/

def pushFront (v : ι) (value : Arg α) : M ι α Unit := do
  let node ← newNode value
  let this ← self v
  if this.mSize = 0 then
    update v fun this => { this with mHead := node, mTail := node }
    addSize v 1
  else
    setPrev this.mHead node
    setNext node this.mHead
    update v fun this => { this with mHead := node }
    addSize v 1

def popFront (v : ι) : M ι α Unit := do
  let this ← self v
  if this.mSize = 0 then pure ()
  else if this.mSize = 1 then
    delete this.mHead
    update v fun this => { this with mHead := none, mTail := none }
    addSize v (-1)
  else
    let first ← deref this.mHead
    setPrev first.next none
    delete first.next
    update v fun this => { this with mHead := first.next }
    addSize v (-1)

def pushBack (v : ι) (value : Arg α) : M ι α Unit := do
  let node ← newNode value
  let this ← self v
  if this.mSize = 0 then
    update v fun this => { this with mHead := node, mTail := node }
    addSize v 1
  else
    setNext this.mTail node
    setPrev node this.mTail
    update v fun this => { this with mTail := node }
    addSize v 1

def popBack (v : ι) : M ι α Unit := do
  let this ← self v
  if this.mSize = 0 then pure ()
  else if this.mSize = 1 then
    delete this.mHead
    update v fun this => { this with mHead := none, mTail := none }
    addSize v (-1)
  else
    let last ← deref this.mTail
    setNext last.prev none
    delete this.mTail
    update v fun this => { this with mTail := last.prev }
    addSize v (-1)

/-! ## Positions -/

/-- One turn of the loop in `insert`. -/
def insertBefore (value : Arg α) (pointer : Option ℕ) : M ι α (Option ℕ) := do
  let node ← newNode value
  let old ← deref pointer
  setPrev node old.prev
  setNext old.prev node
  setNext node pointer
  setPrev pointer node
  return node

def insert (v : ι) (pos : Iterator) (n : ℤ) (value : Arg α) : M ι α Iterator := do
  if ← pos.same (← begin' v) then
    forUp (fun _ => pushFront v value) 0 n.toNat
    begin' v
  else if ← pos.same (← end' v) then
    let this ← self v
    forUp (fun _ => pushBack v value) 0 n.toNat
    return ⟨some this.mTail⟩
  else
    let pointer ← defined pos.mPointer
    let (_, node) ← loop (fun (i, pointer) => do
      if i < n then
        let node ← insertBefore value pointer
        return some (i + 1, node)
      else return none) maxSteps ((0 : ℤ), pointer)
    addSize v n
    return ⟨some node⟩

/-- `insert` of one value ends without a `return`. -/
def insertOne (v : ι) (pos : Iterator) (value : Arg α) : M ι α Iterator := do
  let _ ← insert v pos 1 value
  undefined

def erase (v : ι) (pos : Iterator) : M ι α Iterator := do
  if ← pos.same (← begin' v) then
    let this ← self v
    if 1 < this.mSize then
      let first ← deref this.mHead
      update v fun this => { this with mHead := first.next }
      setPrev first.next none
      delete this.mHead
    else
      delete this.mHead
      update v fun this => { this with mHead := none, mTail := none }
    addSize v (-1)
    begin' v
  else if ← pos.same (← end' v) then return pos
  else
    let pointer ← defined pos.mPointer
    let node ← deref pointer
    if node.prev ≠ none then setNext node.prev node.next
    let node ← deref pointer
    if node.next ≠ none then setPrev node.next node.prev
    let node ← deref pointer
    delete pointer
    addSize v (-1)
    return ⟨some node.next⟩

def eraseRange (v : ι) (first last : Iterator) : M ι α Iterator := do
  let _ ← loop (fun it => do
    if ← it.same last then return none
    else
      let _ ← erase v it
      let next ← it.advance
      return some next) maxSteps first
  return last

/-! ## Whole lists -/

def clear (v : ι) : M ι α Unit := do
  let _ ← loop (fun () => do
    let this ← self v
    if 0 < this.mSize then
      popBack v
      return some ()
    else return none) maxSteps ()

def assign (v : ι) (n : ℤ) (value : Arg α) : M ι α Unit := do
  clear v
  forUp (fun _ => pushBack v value) 0 n.toNat

/-- The first loop compares `node -> m_prev` with null and assigns nothing. -/
def remove [DecidableEq α] (v : ι) (value : Arg α) : M ι α Unit := do
  let this ← self v
  if this.mSize = 0 then pure ()
  else
    let _ ← loop (fun () => do
      let this ← self v
      if this.mHead = none then return none
      else
        let first ← deref this.mHead
        if first.value = (← value.fetch) then
          let _ ← deref first.next
          delete this.mHead
          update v fun this => { this with mHead := first.next }
          addSize v (-1)
          return some ()
        else return none) maxSteps ()
    let this ← self v
    let _ ← loop (fun pointer => do
      if pointer = none then return none
      else
        let node ← deref pointer
        if node.next = none then return none
        else
          let temp ← deref node.next
          if temp.value = (← value.fetch) then
            setNext pointer temp.next
            let temp ← deref node.next
            setPrev temp.next pointer
            delete node.next
            addSize v (-1)
          let node ← deref pointer
          return some node.next) maxSteps this.mHead

/-- The bound of the loops is computed from the present `m_size` every time. -/
def resize [Inhabited α] (v : ι) (size : ℤ) : M ι α Unit := do
  let this ← self v
  if size < this.mSize then
    let _ ← loop (fun i => do
      let this ← self v
      let bound ← intExpr (this.mSize - size)
      if i < bound then
        popBack v
        return some (i + 1)
      else return none) maxSteps (0 : ℤ)
  else
    let _ ← loop (fun i => do
      let this ← self v
      let bound ← intExpr (size - this.mSize)
      if i < bound then
        pushBack v (.temp default)
        return some (i + 1)
      else return none) maxSteps (0 : ℤ)

def merge (v w : ι) : M ι α Unit := do
  let this ← self v
  let other ← self w
  setNext this.mTail other.mHead
  setPrev other.mHead this.mTail
  update v fun this => { this with mTail := other.mTail }
  addSize v other.mSize
  update w fun other => { other with mHead := none, mTail := none }
  update w fun other => { other with mSize := 0 }

def swap (v w : ι) : M ι α Unit :=
  if v = w then pure ()
  else do
    let other ← self w
    let this ← self v
    update w fun _ => this
    update v fun _ => other

/-- Reverses the list. -/
def reserve (v : ι) : M ι α Unit := do
  let this ← self v
  if this.mSize = 0 ∨ this.mSize = 1 then pure ()
  else
    let _ ← loop (fun pointer => do
      if pointer = none then return none
      else
        let node ← deref pointer
        setNext pointer node.prev
        setPrev pointer node.next
        return some node.prev) maxSteps this.mTail
    update v fun now => { now with mHead := this.mTail, mTail := this.mHead }

end LinkedList

end CppProjects
