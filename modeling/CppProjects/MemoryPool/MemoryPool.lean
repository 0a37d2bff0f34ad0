import CppProjects.Core.ByteHeap
import CppProjects.Core.Program

/-!
# The memory pool

`MemoryPool<T, BlockSize>` cuts blocks from `operator new` into slots of one size.
A slot is a union: it holds an object while it is handed out, and a pointer to the
next free slot after it came back.  Blocks are linked by the word they start with.

Memory is bytes, and a pointer is an address.  `operator new` answers with an address
that is an argument of the model, or with none where it throws.
-/

namespace CppProjects

open CInt Program LittleEndian ByteHeap

/-- The parameters of the template: `sizeof(Slot_)` and `BlockSize`.  A slot is a
union with a pointer, so that its size is a multiple of the size of one. -/
structure PoolType where
  sizeofSlot : ℕ
  blockSize : ℕ
  dvd_sizeofSlot : 8 ∣ sizeofSlot
  sizeofSlot_pos : 0 < sizeofSlot

theorem PoolType.word_le (t : PoolType) : 8 ≤ t.sizeofSlot :=
  Nat.le_of_dvd t.sizeofSlot_pos t.dvd_sizeofSlot

/-- The fields of a `MemoryPool`. -/
structure MemoryPool where
  currentBlock : ℕ
  currentSlot : ℕ
  lastSlot : ℕ
  freeSlots : ℕ
deriving DecidableEq, Repr

namespace MemoryPool

inductive Failure
  | badAlloc
deriving DecidableEq, Repr

structure Store where
  heap : ByteHeap
  pool : MemoryPool

abbrev M := Program Failure Store

/-- `MemoryPool()`. -/
def new : MemoryPool := ⟨0, 0, 0, 0⟩

/-! ## Memory -/

/-- `operator new(size)`; `os` is what the operating system has. -/
def operatorNew (os : Option ℕ) (size : ℕ) : M ℕ :=
  match os with
  | none => throw .badAlloc
  | some start => do
      modify fun s => { s with heap := s.heap.extend ⟨start, size⟩ }
      return start

/-- `operator delete(p)`. -/
def operatorDelete (p : ℕ) : M Unit := do
  let s ← get
  let heap ← defined (s.heap.release p)
  set { s with heap := heap }

/-- `p->next`. -/
def load (p : ℕ) : M ℕ := do
  let s ← get
  defined (s.heap.load p)

/-- `p->next = value`. -/
def store (p value : ℕ) : M Unit := do
  let s ← get
  let heap ← defined (s.heap.store p value)
  set { s with heap := heap }

def readBytes (p n : ℕ) : M (List Byte) := do
  let s ← get
  defined (s.heap.read p n)

def writeBytes (p : ℕ) (data : List Byte) : M Unit := do
  let s ← get
  let heap ← defined (s.heap.write p data)
  set { s with heap := heap }

def self : M MemoryPool := do
  let s ← get
  return s.pool

def update (f : MemoryPool → MemoryPool) : M Unit := modify fun s => { s with pool := f s.pool }

/-! ## The pool -/

/-- `sizeof(slot_pointer_)`. -/
def sizeofPointer : ℕ := 8

/-- `(align - result) % align`, in `size_t`. -/
def padPointer (p align : ℕ) : ℕ := toSize ((align : ℤ) - p) % align

variable (t : PoolType)

def allocateBlock (os : Option ℕ) : M Unit := do
  let newBlock ← operatorNew os t.blockSize
  let this ← self
  store newBlock this.currentBlock
  update fun this => { this with currentBlock := newBlock }
  let body := newBlock + sizeofPointer
  let bodyPadding := padPointer body t.sizeofSlot
  update fun this =>
    { this with
      currentSlot := body + bodyPadding
      lastSlot := newBlock + t.blockSize - t.sizeofSlot + 1 }

/-- `currentSlot_++`. -/
def takeCurrentSlot : M ℕ := do
  let this ← self
  update fun this => { this with currentSlot := this.currentSlot + t.sizeofSlot }
  return this.currentSlot

def allocate (os : Option ℕ) : M ℕ := do
  let this ← self
  if this.freeSlots ≠ 0 then
    let next ← load this.freeSlots
    update fun this => { this with freeSlots := next }
    return this.freeSlots
  else
    if this.currentSlot ≥ this.lastSlot then
      allocateBlock t os
      takeCurrentSlot t
    else takeCurrentSlot t

def deallocate (p : ℕ) : M Unit := do
  if p ≠ 0 then
    let this ← self
    store p this.freeSlots
    update fun this => { this with freeSlots := p }
  else pure ()

/-- `-1 / BlockSize`, where `-1` is converted to `size_t`. -/
def maxBlocks : ℕ := toSize (-1) / t.blockSize

def maxSize : ℕ :=
  toSize (toSize ((t.blockSize : ℤ) - sizeofPointer) / t.sizeofSlot * maxBlocks t)

/-- Placement `new` of a value with the bytes `val`. -/
def construct (p : ℕ) (val : List Byte) : M Unit := writeBytes p val

/-- The destructor of the object at `p`.  It may leave any bytes in its storage. -/
def destroy (p : ℕ) (left : List Byte) : M Unit := writeBytes p left

def newElement (os : Option ℕ) (val : List Byte) : M ℕ := do
  let result ← allocate t os
  construct result val
  return result

def deleteElement (p : ℕ) (left : List Byte) : M Unit := do
  if p ≠ 0 then
    destroy p left
    deallocate p
  else pure ()

/-- One turn of the loop in `~MemoryPool()`. -/
def deleteBlock (curr : ℕ) : M (Option ℕ) := do
  if curr ≠ 0 then
    let prev ← load curr
    operatorDelete curr
    return some prev
  else return none

/-- `~MemoryPool()`: the loop has a turn for each block and one to stop. -/
def destruct (fuel : ℕ) : M Unit := do
  let this ← self
  let _ ← loop deleteBlock fuel this.currentBlock

/-! ## What the operations do -/

variable {t} {s : Store} {os : Option ℕ} {p n start value : ℕ} {data : List Byte}

theorem returns_self (s : Store) : Returns self s s.pool s := rfl

theorem returns_update (f : MemoryPool → MemoryPool) (s : Store) :
    Returns (update f) s () { s with pool := f s.pool } := rfl

theorem returns_load (hbacked : s.heap.Backed p 8) :
    Returns (load p) s (wordAt s.heap.bytes p) s :=
  (returns_get s).bind (returns_defined (load_of_backed hbacked) s)

theorem returns_writeBytes (hbacked : s.heap.Backed p data.length) :
    Returns (writeBytes p data) s ()
      { s with heap := { s.heap with bytes := patch s.heap.bytes p data } } :=
  (returns_get s).bind ((returns_defined (write_of_backed hbacked) s).bind rfl)

theorem returns_readBytes (hbacked : s.heap.Backed p n) :
    Returns (readBytes p n) s (slice s.heap.bytes p n) s :=
  (returns_get s).bind (returns_defined (read_of_backed hbacked) s)

theorem returns_store (hbacked : s.heap.Backed p 8) :
    Returns (store p value) s ()
      { s with heap := { s.heap with bytes := patch s.heap.bytes p (toBytes 8 value) } } :=
  (returns_get s).bind ((returns_defined (store_of_backed hbacked) s).bind rfl)

/-- Where the first slot of a block at `start` is. -/
def firstSlot (t : PoolType) (start : ℕ) : ℕ :=
  start + sizeofPointer + padPointer (start + sizeofPointer) t.sizeofSlot

/-- The store after a block at `start` was linked in and its first slot taken. -/
def grown (t : PoolType) (s : Store) (start : ℕ) : Store where
  heap :=
    { bytes := patch s.heap.bytes start (toBytes 8 s.pool.currentBlock)
      regions := ⟨start, t.blockSize⟩ :: s.heap.regions }
  pool :=
    { s.pool with
      currentBlock := start
      currentSlot := firstSlot t start + t.sizeofSlot
      lastSlot := start + t.blockSize - t.sizeofSlot + 1 }

theorem returns_allocate_reuse (hfree : s.pool.freeSlots ≠ 0)
    (hbacked : s.heap.Backed s.pool.freeSlots 8) :
    Returns (allocate t os) s s.pool.freeSlots
      { s with pool := { s.pool with freeSlots := wordAt s.heap.bytes s.pool.freeSlots } } := by
  refine (returns_self s).bind ?_
  rw [if_pos hfree]
  exact (returns_load hbacked).bind ((returns_update _ s).bind (returns_pure _ _))

theorem returns_takeCurrentSlot (s : Store) : Returns (takeCurrentSlot t) s s.pool.currentSlot
    { s with pool := { s.pool with currentSlot := s.pool.currentSlot + t.sizeofSlot } } :=
  (returns_self s).bind ((returns_update _ s).bind (returns_pure _ _))

theorem returns_allocate_carve (hfree : s.pool.freeSlots = 0)
    (hroom : s.pool.currentSlot < s.pool.lastSlot) :
    Returns (allocate t os) s s.pool.currentSlot
      { s with pool := { s.pool with currentSlot := s.pool.currentSlot + t.sizeofSlot } } := by
  refine (returns_self s).bind ?_
  rw [if_neg (not_not_intro hfree), if_neg (not_le.mpr hroom)]
  exact returns_takeCurrentSlot s

theorem returns_allocate_grow (hfree : s.pool.freeSlots = 0)
    (hfull : s.pool.lastSlot ≤ s.pool.currentSlot) (hword : 8 ≤ t.blockSize) :
    Returns (allocate t (some start)) s (firstSlot t start) (grown t s start) := by
  refine (returns_self s).bind ?_
  rw [if_neg (not_not_intro hfree), if_pos hfull]
  have hnew : Returns (operatorNew (some start) t.blockSize) s start
      { s with heap := s.heap.extend ⟨start, t.blockSize⟩ } :=
    (returns_modify _ s).bind (returns_pure _ _)
  have hbacked : (s.heap.extend ⟨start, t.blockSize⟩).Backed start 8 :=
    ⟨⟨start, t.blockSize⟩, by simp [extend], le_rfl, by simpa using hword⟩
  have hblock : Returns (allocateBlock t (some start)) s ()
      { grown t s start with pool := { (grown t s start).pool with currentSlot := firstSlot t start } } :=
    hnew.bind ((returns_self _).bind ((returns_store hbacked).bind
      ((returns_update _ _).bind (returns_update _ _))))
  exact hblock.bind (returns_takeCurrentSlot _)

theorem throws_allocate (hfree : s.pool.freeSlots = 0)
    (hfull : s.pool.lastSlot ≤ s.pool.currentSlot) :
    Throws (allocate t none) s .badAlloc s := by
  refine (returns_self s).bind_throws ?_
  rw [if_neg (not_not_intro hfree), if_pos hfull]
  exact Throws.bind (Throws.bind (throws_throw _ _))

theorem returns_deallocate (hp : p ≠ 0) (hbacked : s.heap.Backed p 8) :
    Returns (deallocate p) s ()
      { heap := { s.heap with bytes := patch s.heap.bytes p (toBytes 8 s.pool.freeSlots) }
        pool := { s.pool with freeSlots := p } } := by
  rw [deallocate, if_pos hp]
  exact (returns_self s).bind ((returns_store hbacked).bind (returns_update _ _))

theorem returns_deallocate_null (s : Store) : Returns (deallocate 0) s () s :=
  returns_pure () s

/-! ## Padding -/

theorem padPointer_lt {align : ℕ} (hpos : 0 < align) (p : ℕ) : padPointer p align < align :=
  Nat.mod_lt _ hpos

/-- The subtraction may wrap around, but `size_t` keeps the remainders by the powers
of two, so that the padding reaches a multiple of each of them in `align`. -/
theorem dvd_add_padPointer {align d : ℕ} (halign : d ∣ align) (hword : d ∣ 2 ^ 64) (p : ℕ) :
    d ∣ p + padPointer p align := by
  have hsize : ((toSize ((align : ℤ) - p) : ℕ) : ℤ) ≡ (align : ℤ) - p [ZMOD d] := by
    rw [toSize, Int.toNat_of_nonneg (Int.emod_nonneg _ (by norm_num))]
    exact Int.emod_emod_of_dvd _ (by exact_mod_cast hword)
  have hpad : ((padPointer p align : ℕ) : ℤ) ≡ -p [ZMOD d] := by
    calc ((padPointer p align : ℕ) : ℤ)
        ≡ ((toSize ((align : ℤ) - p) : ℕ) : ℤ) [ZMOD d] := by
          rw [padPointer, Int.natCast_mod]
          exact Int.emod_emod_of_dvd _ (by exact_mod_cast halign)
      _ ≡ (align : ℤ) - p [ZMOD d] := hsize
      _ ≡ 0 - p [ZMOD d] := (Int.modEq_zero_iff_dvd.mpr (by exact_mod_cast halign)).sub_right _
      _ = -p := zero_sub _
  have hsum : ((p + padPointer p align : ℕ) : ℤ) ≡ 0 [ZMOD d] := by
    push_cast
    calc (p : ℤ) + padPointer p align ≡ p + -p [ZMOD d] := hpad.add_left _
      _ = 0 := add_neg_cancel _
  exact_mod_cast Int.modEq_zero_iff_dvd.mp hsum

theorem dvd_firstSlot {d : ℕ} (hslot : d ∣ t.sizeofSlot) (hword : d ∣ 2 ^ 64) (start : ℕ) :
    d ∣ firstSlot t start := dvd_add_padPointer hslot hword _

theorem le_firstSlot (start : ℕ) : start + 8 ≤ firstSlot t start := Nat.le_add_right _ _

/-- In a block at a multiple of eight the padding leaves room for a pointer. -/
theorem firstSlot_le (haligned : 8 ∣ start) : firstSlot t start ≤ start + t.sizeofSlot := by
  have hdvd := dvd_firstSlot t.dvd_sizeofSlot (by norm_num) start
  have hlt := padPointer_lt t.sizeofSlot_pos (start + sizeofPointer)
  have hslot := t.dvd_sizeofSlot
  have hfirst : firstSlot t start < start + 8 + t.sizeofSlot := Nat.add_lt_add_left hlt _
  omega

end MemoryPool

end CppProjects
