import CppProjects.Core.LittleEndian

/-!
# A memory of bytes

A flat memory and the regions of it that an allocator has handed out.  Every
access has to lie inside one region.  Objects are ranges of bytes, a write to one
leaves those apart from it as they are, and lists are threaded through the memory
by the words stored at their nodes.
-/

namespace CppProjects

open LittleEndian

/-! ## Ranges -/

/-- `m` bytes at `p` and `n` bytes at `q` have none in common. -/
def Apart (p m q n : ℕ) : Prop := p + m ≤ q ∨ q + n ≤ p

instance (p m q n : ℕ) : Decidable (Apart p m q n) := inferInstanceAs (Decidable (_ ∨ _))

theorem Apart.symm {p m q n : ℕ} (h : Apart p m q n) : Apart q n p m := Or.symm h

/-- Parts of ranges that are apart are apart. -/
theorem Apart.within {p m q n p' m' q' n' : ℕ} (h : Apart p m q n) (hp : p ≤ p' ∧ p' + m' ≤ p + m)
    (hq : q ≤ q' ∧ q' + n' ≤ q + n) : Apart p' m' q' n' := by
  rcases h with hbefore | hbehind
  · exact .inl (by omega)
  · exact .inr (by omega)

/-- Different members of a list of ranges that are apart from each other. -/
theorem apart_of_mem {α : Type*} {l : List α} {f : α → ℕ} {n : ℕ}
    (hapart : l.Pairwise fun x y => Apart (f x) n (f y) n) {x y : α} (hx : x ∈ l) (hy : y ∈ l)
    (hne : x ≠ y) : Apart (f x) n (f y) n := by
  have : Std.Symm fun x y => Apart (f x) n (f y) n := ⟨fun _ _ h => h.symm⟩
  exact hapart.forall hx hy hne

/-- Ranges of `n` bytes that are apart from each other take up `n` bytes each. -/
theorem length_mul_le_of_apart {l : List ℕ} {n a b : ℕ}
    (hapart : l.Pairwise fun p q => Apart p n q n) (hinside : ∀ p ∈ l, a ≤ p ∧ p + n ≤ b) :
    l.length * n ≤ b - a := by
  have hnodup : (l.flatMap fun p => List.range' p n).Nodup := by
    refine List.nodup_flatMap.mpr ⟨fun p _ => List.nodup_range', hapart.imp ?_⟩
    intro p q h i hp hq
    rw [List.mem_range'_1] at hp hq
    rcases h with hbefore | hbehind <;> omega
  have hsubset : (l.flatMap fun p => List.range' p n) ⊆ List.range' a (b - a) := by
    intro i hi'
    obtain ⟨p, hp, hi'⟩ := List.mem_flatMap.mp hi'
    obtain ⟨hlo, hhi⟩ := hinside p hp
    rw [List.mem_range'_1] at hi' ⊢
    omega
  have hlength := (hnodup.subperm hsubset).length_le
  simpa [List.length_flatMap] using hlength

/-- A range of an allocator. -/
structure Region where
  start : ℕ
  size : ℕ
deriving DecidableEq, Repr

structure ByteHeap where
  bytes : ℕ → Byte
  regions : List Region

namespace ByteHeap

/-! ## Reading and writing -/

/-- The bytes with `data` written at `p`. -/
def patch (bytes : ℕ → Byte) (p : ℕ) (data : List Byte) (addr : ℕ) : Byte :=
  if p ≤ addr then data[addr - p]?.getD (bytes addr) else bytes addr

/-- `n` bytes at `p`. -/
def slice (bytes : ℕ → Byte) (p n : ℕ) : List Byte := (List.range n).map fun i => bytes (p + i)

/-- The pointer stored at `p`. -/
def wordAt (bytes : ℕ → Byte) (p : ℕ) : ℕ := ofBytes (slice bytes p 8)

/-- A region holds `n` bytes at `p`. -/
def Backed (heap : ByteHeap) (p n : ℕ) : Prop :=
  ∃ region ∈ heap.regions, region.start ≤ p ∧ p + n ≤ region.start + region.size

instance (heap : ByteHeap) (p n : ℕ) : Decidable (heap.Backed p n) :=
  inferInstanceAs (Decidable (∃ region ∈ heap.regions, _))

def read (heap : ByteHeap) (p n : ℕ) : Option (List Byte) :=
  if heap.Backed p n then some (slice heap.bytes p n) else none

def write (heap : ByteHeap) (p : ℕ) (data : List Byte) : Option ByteHeap :=
  if heap.Backed p data.length then some { heap with bytes := patch heap.bytes p data } else none

/-- Reads the pointer at `p`. -/
def load (heap : ByteHeap) (p : ℕ) : Option ℕ :=
  if heap.Backed p 8 then some (wordAt heap.bytes p) else none

/-- Writes a pointer to `p`. -/
def store (heap : ByteHeap) (p value : ℕ) : Option ByteHeap := heap.write p (toBytes 8 value)

/-- A region more. -/
def extend (heap : ByteHeap) (region : Region) : ByteHeap :=
  { heap with regions := region :: heap.regions }

/-- The region that starts at `p` goes back to the allocator; there has to be one. -/
def release (heap : ByteHeap) (p : ℕ) : Option ByteHeap :=
  match heap.regions.find? fun region => region.start = p with
  | some region => some { heap with regions := heap.regions.erase region }
  | none => none

variable {bytes bytes' : ℕ → Byte} {data : List Byte} {p q n addr value : ℕ}

@[simp]
theorem length_slice (bytes : ℕ → Byte) (p n : ℕ) : (slice bytes p n).length = n := by
  simp [slice]

theorem patch_inside {byte : Byte} {i : ℕ} (hbyte : data[i]? = some byte) :
    patch bytes p data (p + i) = byte := by
  rw [patch, if_pos (Nat.le_add_right p i), Nat.add_sub_cancel_left, hbyte, Option.getD_some]

theorem patch_outside (haddr : addr < p ∨ p + data.length ≤ addr) :
    patch bytes p data addr = bytes addr := by
  rw [patch]
  split_ifs with hle
  · rw [List.getElem?_eq_none (by omega), Option.getD_none]
  · rfl

theorem slice_congr (hbytes : ∀ i < n, bytes (p + i) = bytes' (p + i)) :
    slice bytes p n = slice bytes' p n :=
  List.map_congr_left fun i hi => hbytes i (List.mem_range.mp hi)

theorem slice_patch_self (bytes : ℕ → Byte) (p : ℕ) (data : List Byte) :
    slice (patch bytes p data) p data.length = data := by
  refine List.ext_getElem (length_slice ..) fun i _ hi => ?_
  simp only [slice, List.getElem_map, List.getElem_range]
  exact patch_inside (List.getElem?_eq_getElem hi)

theorem slice_patch_of_apart (hapart : Apart p data.length q n) :
    slice (patch bytes p data) q n = slice bytes q n := by
  refine slice_congr fun i hi => patch_outside ?_
  rcases hapart with hbefore | hbehind <;> omega

theorem wordAt_congr (hbytes : ∀ i < 8, bytes (p + i) = bytes' (p + i)) :
    wordAt bytes p = wordAt bytes' p := congrArg ofBytes (slice_congr hbytes)

theorem wordAt_patch_of_apart (hapart : Apart p data.length q 8) :
    wordAt (patch bytes p data) q = wordAt bytes q := by
  rw [wordAt, slice_patch_of_apart hapart, wordAt]

/-- A stored pointer is read back. -/
theorem wordAt_patch_self (hvalue : value < 2 ^ 64) :
    wordAt (patch bytes p (toBytes 8 value)) p = value := by
  have hslice := slice_patch_self bytes p (toBytes 8 value)
  rw [length_toBytes] at hslice
  rw [wordAt, hslice, ofBytes_toBytes, Nat.mod_eq_of_lt (hvalue.trans_eq (by norm_num))]

-- what follows needs these lemmas only, and the definition is slow to compare
attribute [irreducible] wordAt

variable {heap : ByteHeap}

theorem Backed.within {m : ℕ} (hbacked : heap.Backed p n) (hp : p ≤ q) (hq : q + m ≤ p + n) :
    heap.Backed q m := by
  obtain ⟨region, hmem, hlo, hhi⟩ := hbacked
  exact ⟨region, hmem, by omega, by omega⟩

theorem load_of_backed (hbacked : heap.Backed p 8) : heap.load p = some (wordAt heap.bytes p) :=
  if_pos hbacked

theorem read_of_backed (hbacked : heap.Backed p n) : heap.read p n = some (slice heap.bytes p n) :=
  if_pos hbacked

theorem write_of_backed (hbacked : heap.Backed p data.length) :
    heap.write p data = some { heap with bytes := patch heap.bytes p data } := if_pos hbacked

theorem store_of_backed (hbacked : heap.Backed p 8) :
    heap.store p value = some { heap with bytes := patch heap.bytes p (toBytes 8 value) } :=
  write_of_backed (by rwa [length_toBytes])

/-! ## Lists threaded through the memory -/

/-- From `p` the words at `next` lead through the nodes of the list to null. -/
def Chain (next : ℕ → ℕ) : ℕ → List ℕ → Prop
  | p, [] => p = 0
  | p, q :: rest => p = q ∧ q ≠ 0 ∧ Chain next (next q) rest

variable {next next' : ℕ → ℕ} {l : List ℕ}

theorem Chain.congr (hchain : Chain next p l) (hnext : ∀ q ∈ l, next' q = next q) :
    Chain next' p l := by
  induction l generalizing p with
  | nil => exact hchain
  | cons q rest ih =>
      obtain ⟨rfl, hne, hrest⟩ := hchain
      refine ⟨rfl, hne, ?_⟩
      rw [hnext p (by simp)]
      exact ih hrest fun q hq => hnext q (by simp [hq])

theorem Chain.eq_nil (hchain : Chain next 0 l) : l = [] := by
  cases l with
  | nil => rfl
  | cons q rest => exact absurd hchain.1.symm hchain.2.1

theorem Chain.exists_cons (hchain : Chain next p l) (hp : p ≠ 0) :
    ∃ rest, l = p :: rest ∧ Chain next (next p) rest := by
  cases l with
  | nil => exact absurd hchain hp
  | cons q rest =>
      obtain ⟨rfl, -, hrest⟩ := hchain
      exact ⟨rest, rfl, hrest⟩

/-- Two lists from one place are one list. -/
theorem Chain.unique {l' : List ℕ} (hchain : Chain next p l) (hchain' : Chain next p l') : l = l' := by
  induction l generalizing p l' with
  | nil =>
      obtain rfl : p = 0 := hchain
      exact hchain'.eq_nil.symm
  | cons q rest ih =>
      obtain ⟨rfl, hne, hrest⟩ := hchain
      obtain ⟨rest', rfl, hrest'⟩ := hchain'.exists_cons hne
      rw [ih hrest hrest']

theorem Chain.head_mem_or (hchain : Chain next p l) : p = 0 ∨ p ∈ l := by
  cases l with
  | nil => exact .inl hchain
  | cons q rest => exact .inr (by simp [hchain.1])

end ByteHeap

end CppProjects
