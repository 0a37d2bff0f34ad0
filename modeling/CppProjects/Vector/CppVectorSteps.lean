import CppProjects.Vector.CppVector

/-!
# Rules for the steps of `vector`

What each access to a slot and each loop over the slots returns, and in which store.
-/

namespace CppProjects

open CInt Program

/-- How many of the slots hold an object. -/
def objects {α : Type} (cells : List (Slot α)) : ℕ := cells.countP fun slot : Slot α => !slot.isRaw

namespace CppVector

variable {ι α : Type}

/-! ## Stores -/

namespace Store

/-- The store with other contents for one buffer. -/
def withCells (s : Store ι α) (data : Option ℕ) (cells : List (Slot α)) (lost : ℕ) : Store ι α :=
  { s with heap := s.heap.replaceAt data cells, lost := lost }

def withVector [DecidableEq ι] (s : Store ι α) (v : ι) (this : CppVector) : Store ι α :=
  { s with vectors := Function.update s.vectors v this }

/-- The store with a new buffer at `s.heap.next`. -/
def withNew (s : Store ι α) (cells : List (Slot α)) : Store ι α :=
  { s with heap := s.heap.alloc cells }

def without (s : Store ι α) (data : Option ℕ) (lost : ℕ) : Store ι α :=
  { s with heap := s.heap.freeAt data, lost := lost }

variable (s : Store ι α) {v : ι} {this that : CppVector} {data : Option ℕ}
  {cells cells' new : List (Slot α)} {lost lost' : ℕ}

@[simp]
theorem withVector_withVector [DecidableEq ι] :
    (s.withVector v this).withVector v that = s.withVector v that := by
  simp [withVector]

@[simp]
theorem vectors_withVector [DecidableEq ι] : (s.withVector v this).vectors v = this :=
  Function.update_self ..

@[simp]
theorem withCells_withCells :
    (s.withCells data cells lost).withCells data cells' lost' = s.withCells data cells' lost' := by
  simp [withCells]

theorem withNew_withCells (hne : data ≠ some s.heap.next) :
    ((s.withNew cells').withCells data cells lost).withCells (some s.heap.next) new lost' =
      (s.withNew new).withCells data cells lost' := by
  simp only [withCells, withNew]
  congr 1
  change ((s.heap.alloc cells').replaceAt data cells).replace s.heap.next new = _
  rw [ArrayHeap.replace_replaceAt hne, ArrayHeap.alloc_replace]

theorem withCells_without :
    (s.withCells data cells lost).without data lost' = s.without data lost' := by
  simp only [withCells, without, ArrayHeap.freeAt_replaceAt]

theorem cellsAt_withCells (hdata : s.heap.cellsAt data = some cells)
    (hlength : cells'.length = cells.length) (lost : ℕ) :
    (s.withCells data cells' lost).heap.cellsAt data = some cells' :=
  ArrayHeap.cellsAt_replaceAt hdata hlength

theorem withCells_self (hdata : s.heap.cellsAt data = some cells) :
    s.withCells data cells s.lost = s := by
  rw [withCells, ArrayHeap.replaceAt_self hdata]

end Store

variable {s : Store ι α} {v : ι} {this : CppVector} {data : Option ℕ} {cells : List (Slot α)}
  {slot : Slot α} {x : α} {i off count : ℕ}

/-! ## Slots -/

theorem returns_self (hthis : s.vectors v = this) : Returns (self v) s this s := by
  rw [← hthis]
  rfl

theorem returns_update [DecidableEq ι] (hthis : s.vectors v = this) (f : CppVector → CppVector) :
    Returns (update v f) s () (s.withVector v (f this)) := by
  rw [← hthis]
  rfl

theorem returns_readSlot (hdata : s.heap.cellsAt data = some cells) (hslot : cells[i]? = some slot) :
    Returns (readSlot data i) s slot s := by
  obtain ⟨hindex, rfl⟩ := List.getElem?_eq_some_iff.mp hslot
  exact (returns_get s).bind (returns_defined (ArrayHeap.readAt_of_lt hdata hindex) s)

theorem returns_writeSlot (hdata : s.heap.cellsAt data = some cells) (hindex : i < cells.length)
    (slot : Slot α) :
    Returns (writeSlot data i slot) s () (s.withCells data (cells.set i slot) s.lost) := by
  refine (returns_get s).bind ?_
  exact (returns_defined (ArrayHeap.writeAt_of_lt hdata hindex slot) s).bind rfl

theorem returns_valueAt (hdata : s.heap.cellsAt data = some cells)
    (hslot : cells[i]? = some (.full x)) : Returns (valueAt data i) s x s :=
  (returns_readSlot hdata hslot).bind (returns_pure x s)

/-- What was in a released buffer cannot be read. -/
theorem stuck_released (hreleased : ∀ addr, data = some addr → s.heap.arrays addr = none) (i : ℕ) :
    Stuck (Arg.slot data i).get s := by
  refine Stuck.bind ((returns_get s).bind_stuck (stuck_defined ?_ s))
  cases data with
  | none => rfl
  | some addr =>
      rw [ArrayHeap.readAt, Option.bind_some, ArrayHeap.read, hreleased addr rfl]
      rfl

theorem stuck_raw (hdata : s.heap.cellsAt data = some cells) (hslot : cells[i]? = some .raw) :
    Stuck (Arg.slot data i).get s :=
  (returns_readSlot hdata hslot).bind_stuck (stuck_undefined s)

theorem returns_moveFrom (hdata : s.heap.cellsAt data = some cells)
    (hslot : cells[i]? = some (.full x)) :
    Returns (moveFrom data i) s x (s.withCells data (cells.set i .moved) s.lost) :=
  (returns_valueAt hdata hslot).bind ((returns_writeSlot hdata
    (List.getElem?_eq_some_iff.mp hslot).1 .moved).bind (returns_pure x _))

theorem returns_construct (hdata : s.heap.cellsAt data = some cells) (hslot : cells[i]? = some slot)
    (x : α) : Returns (construct data i x) s ()
      (s.withCells data (cells.set i (.full x)) (s.lost + objects [slot])) := by
  refine (returns_readSlot hdata hslot).bind ((returns_writeSlot hdata
    (List.getElem?_eq_some_iff.mp hslot).1 _).bind ?_)
  cases slot <;> rfl

theorem returns_assignSlot (hdata : s.heap.cellsAt data = some cells) (hslot : cells[i]? = some slot)
    (hobject : slot.isRaw = false) (x : α) :
    Returns (assignSlot data i x) s () (s.withCells data (cells.set i (.full x)) s.lost) := by
  have hwrite := returns_writeSlot hdata (List.getElem?_eq_some_iff.mp hslot).1 (.full x)
  refine (returns_readSlot hdata hslot).bind ?_
  cases slot with
  | raw => cases hobject
  | moved => exact hwrite
  | full old => exact hwrite

theorem returns_destroyAt (hdata : s.heap.cellsAt data = some cells) (hslot : cells[i]? = some slot)
    (hobject : slot.isRaw = false) :
    Returns (destroyAt data i) s () (s.withCells data (cells.set i .raw) s.lost) := by
  have hwrite := returns_writeSlot hdata (List.getElem?_eq_some_iff.mp hslot).1 Slot.raw
  refine (returns_readSlot hdata hslot).bind ?_
  cases slot with
  | raw => cases hobject
  | moved => exact hwrite
  | full old => exact hwrite

/-! ## Loops over one buffer -/

/-- A loop that writes one slot after another. -/
theorem returns_forEach_write {body : ℕ → M ι α Unit} {slots : List (Slot α)} (lost : ℕ → ℕ)
    (hdata : s.heap.cellsAt data = some cells) (hfits : off + slots.length ≤ cells.length)
    (hlost : lost 0 = s.lost)
    (hbody : ∀ k (hk : k < slots.length) (t : Store ι α),
      t = s.withCells data (overwrite cells off (slots.take k)) (lost k) →
      t.heap.cellsAt data = some (overwrite cells off (slots.take k)) →
      (overwrite cells off (slots.take k))[off + k]? = cells[off + k]? →
      Returns (body (off + k)) t () (t.withCells data
        ((overwrite cells off (slots.take k)).set (off + k) slots[k]) (lost (k + 1)))) :
    Returns (forEach body off slots.length) s ()
      (s.withCells data (overwrite cells off slots) (lost slots.length)) := by
  have hloop : Returns (forEach body off slots.length) _ () _ := returns_forEach
    (fun k => s.withCells data (overwrite cells off (slots.take k)) (lost k)) ?_
  · rw [List.take_zero, overwrite_nil, hlost, Store.withCells_self _ hdata, List.take_length] at hloop
    exact hloop
  · intro k hk
    have hlength : (slots.take k).length = k := by
      rw [List.length_take]
      omega
    have hset : (overwrite cells off (slots.take k)).set (off + k) slots[k] =
        overwrite cells off (slots.take (k + 1)) := by
      have hlast : (overwrite cells off (slots.take k)).set (off + (slots.take k).length) slots[k] = _ :=
        overwrite_set_last (by omega)
      rw [hlength] at hlast
      rw [hlast, List.take_add_one, List.getElem?_eq_getElem hk, Option.toList_some]
    have hsame : (overwrite cells off (slots.take k))[off + k]? = cells[off + k]? := by
      rw [getElem?_overwrite (by omega), if_neg (by omega), if_neg (by omega)]
    have hstep := hbody k hk _ rfl (ArrayHeap.cellsAt_replaceAt hdata (length_overwrite (by omega)))
      hsame
    rwa [hset, Store.withCells_withCells] at hstep

/-- `std::destroy(data + off, data + off + count)`. -/
theorem returns_destroy (hdata : s.heap.cellsAt data = some cells) (hfits : off + count ≤ cells.length)
    (hobjects : ∀ k < count, ∀ slot, cells[off + k]? = some slot → slot.isRaw = false) :
    Returns (forEach (destroyAt data) off count) s ()
      (s.withCells data (overwrite cells off (List.replicate count .raw)) s.lost) := by
  have hloop : Returns (forEach (destroyAt data) off (List.replicate count (Slot.raw : Slot α)).length) s ()
      (s.withCells data (overwrite cells off (List.replicate count .raw)) s.lost) := by
    refine returns_forEach_write (fun _ => s.lost) hdata (by simpa using hfits) rfl ?_
    rintro k hk t rfl ht hsame
    rw [List.length_replicate] at hk
    have hlt : off + k < cells.length := by omega
    rw [List.getElem?_eq_getElem hlt] at hsame
    rw [List.getElem_replicate]
    exact returns_destroyAt ht hsame (hobjects k hk _ (List.getElem?_eq_getElem hlt))
  rwa [List.length_replicate] at hloop

theorem objects_append (left right : List (Slot α)) :
    objects (left ++ right) = objects left + objects right := List.countP_append

@[simp]
theorem objects_replicate_raw (n : ℕ) : objects (List.replicate n (Slot.raw : Slot α)) = 0 := by
  rw [objects, List.countP_replicate]
  rfl

/-- A loop that constructs one object after another. -/
theorem returns_forEach_construct {source : ℕ → M ι α α} {ys : List α}
    (hdata : s.heap.cellsAt data = some cells) (hfits : off + ys.length ≤ cells.length)
    (hsource : ∀ k (hk : k < ys.length) (lost : ℕ),
      Returns (source (off + k)) (s.withCells data (overwrite cells off ((ys.map .full).take k)) lost)
        ys[k] (s.withCells data (overwrite cells off ((ys.map .full).take k)) lost)) :
    Returns (forEach (fun k => do construct data k (← source k)) off ys.length) s ()
      (s.withCells data (overwrite cells off (ys.map .full))
        (s.lost + objects ((cells.drop off).take ys.length))) := by
  have hloop : Returns (forEach (fun k => do construct data k (← source k)) off
      (ys.map Slot.full).length) s () (s.withCells data (overwrite cells off (ys.map .full))
        (s.lost + objects ((cells.drop off).take (ys.map Slot.full).length))) := by
    refine returns_forEach_write (fun k => s.lost + objects ((cells.drop off).take k)) hdata
      (by simpa using hfits) rfl ?_
    rintro k hk t rfl ht hsame
    rw [List.length_map] at hk
    have hlt : off + k < cells.length := by omega
    have hcell := List.getElem?_eq_getElem hlt
    have hcount : objects ((cells.drop off).take (k + 1)) =
        objects ((cells.drop off).take k) + objects [cells[off + k]] := by
      rw [List.take_add_one, List.getElem?_drop, hcell, Option.toList_some, objects_append]
    rw [List.getElem_map, hcount, ← Nat.add_assoc]
    exact (hsource k hk _).bind (returns_construct ht (hsame.trans hcell) _)
  rwa [List.length_map] at hloop

/-! ## Buffers -/

/-- An allocation of `n` slots would succeed. -/
def Store.Grants (s : Store ι α) (n : ℕ) : Prop :=
  n ≤ s.traits.maxSize ∧ n < 2 ^ 63 ∧ s.refuses s.heap.next = false

instance (s : Store ι α) (n : ℕ) : Decidable (s.Grants n) := inferInstanceAs (Decidable (_ ∧ _))

theorem returns_allocate {n : ℕ} (hgrants : s.Grants n) :
    Returns (allocate n) s s.heap.next (s.withNew (List.replicate n .raw)) := by
  obtain ⟨hmax, hsmall, hmemory⟩ := hgrants
  refine (returns_get s).bind ?_
  have hno : ¬ (2 ^ 63 ≤ n ∨ s.refuses s.heap.next = true) := by
    rw [hmemory]
    simp only [Bool.false_eq_true, or_false, Nat.not_le]
    exact hsmall
  rw [if_neg (Nat.not_lt.mpr hmax), if_neg hno]
  rfl

theorem throws_allocate {n : ℕ} (hrefused : ¬ s.Grants n) :
    ∃ error, Throws (allocate n) s error s := by
  by_cases hmax : s.traits.maxSize < n
  · refine ⟨.lengthError, (returns_get s).bind_throws ?_⟩
    rw [if_pos hmax]
    exact throws_throw _ s
  · refine ⟨.badAlloc, (returns_get s).bind_throws ?_⟩
    have hno : 2 ^ 63 ≤ n ∨ s.refuses s.heap.next = true := by
      by_contra hnot
      rw [not_or, Nat.not_le, Bool.not_eq_true] at hnot
      exact hrefused ⟨Nat.not_lt.mp hmax, hnot⟩
    rw [if_neg hmax, if_pos hno]
    exact throws_throw _ s

theorem returns_deallocate (hdata : s.heap.cellsAt data = some cells) :
    Returns (deallocate data cells.length) s () (s.without data (s.lost + objects cells)) := by
  cases data with
  | none =>
      obtain rfl : [] = cells := Option.some.inj hdata
      exact returns_pure () s
  | some addr =>
      refine (returns_get s).bind ((returns_defined (show s.heap.arrays addr = _ from hdata) s).bind ?_)
      rw [if_pos rfl]
      rfl

/-! ## A vector and its elements -/

/-- A vector with the elements `xs` in front of its buffer; what is behind them may be
anything. -/
structure Opened (s : Store ι α) (v : ι) (xs : List α) (data : Option ℕ)
    (cells : List (Slot α)) : Prop where
  vector : s.vectors v = ⟨(s.vectors v).alloc, data, xs.length, cells.length⟩
  buffer : s.heap.cellsAt data = some cells
  small : cells.length < 2 ^ 63
  front : xs.map .full <+: cells

variable {xs : List α} {n : ℕ}

theorem Opened.fits (hopened : Opened s v xs data cells) : xs.length ≤ cells.length := by
  simpa using hopened.front.length_le

theorem Opened.getElem? (hopened : Opened s v xs data cells) (hget : xs[i]? = some x) :
    cells[i]? = some (.full x) := by
  obtain ⟨rest, hrest⟩ := hopened.front
  have hlt := (List.getElem?_eq_some_iff.mp hget).1
  rw [← hrest, List.getElem?_append_left (by rwa [List.length_map]), List.getElem?_map, hget]
  rfl

theorem Opened.reads (hopened : Opened s v xs data cells) (hget : xs[i]? = some x) :
    Returns (Arg.slot data i).get s x s :=
  returns_valueAt hopened.buffer (hopened.getElem? hget)

theorem Opened.ne_new (hopened : Opened s v xs data cells) : data ≠ some s.heap.next := by
  rintro rfl
  exact absurd (ArrayHeap.lt_next hopened.buffer) (lt_irrefl _)

/-- A new buffer that begins with the elements. -/
def moved (n : ℕ) (xs : List α) : List (Slot α) := overwrite (List.replicate n .raw) 0 (xs.map .full)

theorem length_moved (hfits : xs.length ≤ n) : (moved n xs).length = n := by
  rw [moved, length_overwrite (by simpa using hfits), List.length_replicate]

theorem front_moved (n : ℕ) (xs : List α) : xs.map .full <+: moved n xs := by
  have hnil : [] <+: List.replicate n (Slot.raw : Slot α) := List.nil_prefix
  exact prefix_overwrite (xs.map .full) hnil

/-- The buffers while the elements are moved. -/
def moving (s : Store ι α) (data : Option ℕ) (cells : List (Slot α)) (n : ℕ) (xs : List α) (k : ℕ) :
    Store ι α :=
  (s.withNew (moved n (xs.take k))).withCells data (overwrite cells 0 (List.replicate k .moved)) s.lost

/-- The elements are moved from one buffer to the other. -/
theorem Opened.returns_move (hopened : Opened s v xs data cells) (hfits : xs.length ≤ n) :
    Returns (forEach (fun k => do construct (some s.heap.next) k (← moveFrom data k)) 0 xs.length)
      (s.withNew (List.replicate n .raw)) () (moving s data cells n xs xs.length) := by
  have hkept : ∀ new, (s.withNew new).heap.cellsAt data = some cells := fun new =>
    (ArrayHeap.Keeps.alloc (some s.heap.next) s.heap new).cellsAt
      (fun _ heq => hopened.ne_new heq.symm) hopened.buffer
  have hloop : Returns (forEach (fun k => do construct (some s.heap.next) k (← moveFrom data k)) 0
      xs.length) _ () _ := returns_forEach (moving s data cells n xs) ?_
  · have hstart : moving s data cells n xs 0 = s.withNew (List.replicate n .raw) := by
      rw [moving, List.take_zero, moved, List.map_nil, overwrite_nil, List.replicate_zero, overwrite_nil]
      exact Store.withCells_self _ (hkept _)
    rwa [hstart] at hloop
  · intro k hk
    have hxs : (xs.take k).length = k := List.length_take_of_le hk.le
    have hcells := hopened.fits
    have hold : (moving s data cells n xs k).heap.cellsAt data =
        some (overwrite cells 0 (List.replicate k .moved)) :=
      ArrayHeap.cellsAt_replaceAt (hkept _) (length_overwrite (by simp; omega))
    have hslot : (overwrite cells 0 (List.replicate k Slot.moved))[k]? = some (.full xs[k]) := by
      rw [getElem?_overwrite (by simp; omega), if_neg (Nat.not_lt_zero k), if_neg (by simp)]
      exact hopened.getElem? (List.getElem?_eq_getElem hk)
    have hset : (overwrite cells 0 (List.replicate k Slot.moved)).set k .moved =
        overwrite cells 0 (List.replicate (k + 1) .moved) := by
      have hlast : (overwrite cells 0 (List.replicate k Slot.moved)).set
          (0 + (List.replicate k (Slot.moved : Slot α)).length) .moved = _ :=
        overwrite_set_last (by rw [List.length_replicate]; omega)
      rwa [List.length_replicate, Nat.zero_add, ← List.replicate_succ'] at hlast
    have hmove := returns_moveFrom hold hslot
    rw [hset, moving, Store.withCells_withCells] at hmove
    have hnew : ((s.withNew (moved n (xs.take k))).withCells data
        (overwrite cells 0 (List.replicate (k + 1) .moved)) s.lost).heap.cellsAt (some s.heap.next) =
        some (moved n (xs.take k)) :=
      (ArrayHeap.replaceAt_arrays_of_ne hopened.ne_new).trans (ArrayHeap.alloc_arrays_next ..)
    have hraw : (moved n (xs.take k))[k]? = some .raw := by
      rw [moved, getElem?_overwrite (by simp; omega), if_neg (Nat.not_lt_zero k),
        if_neg (by simp), List.getElem?_replicate_of_lt (by omega)]
    have hconstruct := returns_construct hnew hraw xs[k]
    have hnext : (moved n (xs.take k)).set k (.full xs[k]) = moved n (xs.take (k + 1)) := by
      have hlast : (overwrite (List.replicate n Slot.raw) 0 ((xs.take k).map .full)).set
          (0 + ((xs.take k).map (Slot.full : α → Slot α)).length) (.full xs[k]) = _ :=
        overwrite_set_last (by rw [List.length_map, List.length_replicate]; omega)
      rw [List.length_map, hxs, Nat.zero_add] at hlast
      rw [moved, hlast, moved, List.take_add_one, List.getElem?_eq_getElem hk, Option.toList_some,
        List.map_append, List.map_singleton]
    rw [hnext, Store.withNew_withCells _ hopened.ne_new] at hconstruct
    rw [Nat.zero_add]
    exact hmove.bind hconstruct

/-- Of a buffer without its elements the objects behind them are left. -/
theorem objects_emptied (cells : List (Slot α)) (n : ℕ) :
    objects (overwrite cells 0 (List.replicate n .raw)) = objects (cells.drop n) := by
  rw [overwrite, List.take_zero, List.nil_append, objects_append, objects_replicate_raw, Nat.zero_add,
    List.length_replicate, Nat.zero_add]

/-- The elements have left the old buffer, and it is released. -/
theorem Opened.returns_relocate (hopened : Opened s v xs data cells) (hfits : xs.length ≤ n)
    (alloc : ℕ) :
    Returns (relocate ⟨alloc, data, xs.length, cells.length⟩ s.heap.next)
      (s.withNew (List.replicate n .raw)) ()
      ((s.withNew (moved n xs)).without data (s.lost + objects (cells.drop xs.length))) := by
  cases data with
  | none =>
      obtain rfl : [] = cells := Option.some.inj hopened.buffer
      obtain rfl := List.length_eq_zero_iff.mp (Nat.le_zero.mp hopened.fits)
      have hsame : moved n ([] : List α) = List.replicate n .raw := overwrite_nil _ _
      rw [hsame]
      exact returns_pure () _
  | some addr =>
      have hcells := hopened.fits
      have hlength : (overwrite cells 0 (List.replicate xs.length Slot.moved)).length = cells.length :=
        length_overwrite (by rw [List.length_replicate]; omega)
      have hbuffer : (moving s (some addr) cells n xs xs.length).heap.cellsAt (some addr) =
          some (overwrite cells 0 (List.replicate xs.length .moved)) :=
        ArrayHeap.cellsAt_replaceAt ((ArrayHeap.Keeps.alloc (some s.heap.next) s.heap _).cellsAt
          (fun _ heq => hopened.ne_new heq.symm) hopened.buffer) hlength
      have hobjects : ∀ k < xs.length, ∀ slot : Slot α,
          (overwrite cells 0 (List.replicate xs.length .moved))[0 + k]? = some slot →
          slot.isRaw = false := by
        intro k hk slot hslot
        rw [Nat.zero_add, getElem?_overwrite (by rw [List.length_replicate]; omega),
          if_neg (Nat.not_lt_zero k), if_pos (by rw [List.length_replicate]; omega), Nat.sub_zero,
          List.getElem?_replicate_of_lt hk] at hslot
        obtain rfl := Option.some.inj hslot
        rfl
      have hfits' : 0 + xs.length ≤ (overwrite cells 0 (List.replicate xs.length Slot.moved)).length := by
        omega
      have hdestroy := returns_destroy hbuffer hfits' hobjects
      have hsame : overwrite (overwrite cells 0 (List.replicate xs.length Slot.moved)) 0
          (List.replicate xs.length .raw) = overwrite cells 0 (List.replicate xs.length .raw) :=
        overwrite_overwrite (by rw [List.length_replicate, List.length_replicate])
          (by rw [List.length_replicate]; omega)
      rw [hsame] at hdestroy
      have hemptied : (overwrite cells 0 (List.replicate xs.length Slot.raw)).length = cells.length :=
        length_overwrite (by rw [List.length_replicate]; omega)
      have hbuffer' : ((moving s (some addr) cells n xs xs.length).withCells (some addr)
          (overwrite cells 0 (List.replicate xs.length .raw)) s.lost).heap.cellsAt (some addr) =
          some (overwrite cells 0 (List.replicate xs.length .raw)) :=
        Store.cellsAt_withCells _ hbuffer (hemptied.trans hlength.symm) _
      have hrelease := returns_deallocate hbuffer'
      have hlost : (moving s (some addr) cells n xs xs.length).lost = s.lost := rfl
      rw [hlost, moving, Store.withCells_withCells, List.take_length] at hdestroy
      rw [moving, Store.withCells_withCells, List.take_length, Store.withCells_without, hemptied,
        objects_emptied] at hrelease
      have hmove := hopened.returns_move hfits
      rw [moving, List.take_length] at hmove
      exact hmove.bind (hdestroy.bind hrelease)

/-! ## Fewer elements -/

/-- The elements from `n` on are destroyed. -/
theorem Opened.returns_destroy_from (hopened : Opened s v xs data cells) (hle : n ≤ xs.length) :
    Returns (forEach (destroyAt data) n (xs.length - n)) s ()
      (s.withCells data (overwrite cells n (List.replicate (xs.length - n) .raw)) s.lost) := by
  have hfits := hopened.fits
  refine returns_destroy hopened.buffer (by omega) fun k hk slot hslot => ?_
  have hget : xs[n + k]? = some xs[n + k] := List.getElem?_eq_getElem (by omega)
  obtain rfl := Option.some.inj (hslot.symm.trans (hopened.getElem? hget))
  rfl

/-- The first `k` of the elements behind the `count` erased ones from `p` on have moved
down. -/
def closing (cells : List (Slot α)) (xs : List α) (p count k : ℕ) : List (Slot α) :=
  overwrite (overwrite cells (p + count) (List.replicate k .moved)) p
    (((xs.drop (p + count)).take k).map .full)

theorem length_closing {p k : ℕ} (hk : p + count + k ≤ xs.length) (hfits : xs.length ≤ cells.length) :
    (closing cells xs p count k).length = cells.length := by
  have hbelow : (overwrite cells (p + count) (List.replicate k Slot.moved)).length = cells.length :=
    length_overwrite (by rw [List.length_replicate]; omega)
  rw [closing, length_overwrite, hbelow]
  rw [hbelow, List.length_map, List.length_take]
  omega

/-- What is behind the elements that moved down. -/
theorem getElem?_closing {p k j : ℕ} (hk : p + count + k ≤ xs.length) (hfits : xs.length ≤ cells.length)
    (hj : p + k ≤ j) : (closing cells xs p count k)[j]? =
      if p + count ≤ j ∧ j < p + count + k then some .moved else cells[j]? := by
  have htaken : ((xs.drop (p + count)).take k).length ≤ k := List.length_take_le _ _
  have hbelow : (overwrite cells (p + count) (List.replicate k Slot.moved)).length = cells.length :=
    length_overwrite (by rw [List.length_replicate]; omega)
  rw [closing, getElem?_overwrite (by rw [List.length_map]; omega), if_neg (by omega),
    if_neg (by rw [List.length_map]; omega), getElem?_overwrite (by rw [List.length_replicate]; omega),
    List.length_replicate]
  split_ifs
  all_goals first
    | rfl
    | omega
    | exact List.getElem?_replicate_of_lt (by omega)

/-- The places that the elements move to, or are left by, hold objects. -/
theorem Opened.object_closing (hopened : Opened s v xs data cells) {p k j : ℕ}
    (hk : p + count + k ≤ xs.length) (hj : p + k ≤ j) (hlt : j < xs.length) :
    ∃ slot : Slot α, (closing cells xs p count k)[j]? = some slot ∧ slot.isRaw = false := by
  rw [getElem?_closing hk hopened.fits hj]
  split_ifs
  · exact ⟨.moved, rfl, rfl⟩
  · exact ⟨.full xs[j], hopened.getElem? (List.getElem?_eq_getElem hlt), rfl⟩

/-- The elements from `p + count` on move to `p`. -/
theorem Opened.returns_close (hopened : Opened s v xs data cells) {p : ℕ} (hcount : 0 < count)
    (hp : p + count ≤ xs.length) :
    Returns (forEach (fun k => do assignSlot data k (← moveFrom data (k + count))) p
        (xs.length - (p + count))) s ()
      (s.withCells data (closing cells xs p count (xs.length - (p + count))) s.lost) := by
  have hfits := hopened.fits
  have hloop : Returns (forEach (fun k => do assignSlot data k (← moveFrom data (k + count))) p
      (xs.length - (p + count))) _ () _ :=
    returns_forEach (fun k => s.withCells data (closing cells xs p count k) s.lost) ?_
  · have hstart : closing cells xs p count 0 = cells := by
      rw [closing, List.replicate_zero, overwrite_nil, List.take_zero, List.map_nil, overwrite_nil]
    rwa [hstart, Store.withCells_self _ hopened.buffer] at hloop
  · intro k hk
    have htaken : ((xs.drop (p + count)).take k).length = k := by
      rw [List.length_take, List.length_drop]
      omega
    have hturn : p + count + k ≤ xs.length := by omega
    have hlength := length_closing hturn hfits
    have hxs : xs[p + k + count]? = some xs[p + k + count] := List.getElem?_eq_getElem (by omega)
    have hfrom : (closing cells xs p count k)[p + k + count]? = some (.full xs[p + k + count]) := by
      rw [getElem?_closing hturn hfits (by omega), if_neg (by omega)]
      exact hopened.getElem? hxs
    have hmove := returns_moveFrom (Store.cellsAt_withCells s hopened.buffer hlength s.lost) hfrom
    rw [Store.withCells_withCells] at hmove
    -- the place it goes to holds an element, or what is left of one
    obtain ⟨slot, hto, hobject⟩ : ∃ slot : Slot α,
        ((closing cells xs p count k).set (p + k + count) .moved)[p + k]? = some slot ∧
        slot.isRaw = false := by
      rw [List.getElem?_set_ne (by omega)]
      exact hopened.object_closing hturn le_rfl (by omega)
    have hassign := returns_assignSlot (Store.cellsAt_withCells s hopened.buffer
      (List.length_set.trans hlength) s.lost) hto hobject xs[p + k + count]
    rw [Store.withCells_withCells] at hassign
    have hbehind : (closing cells xs p count k).set (p + k + count) .moved =
        overwrite (overwrite cells (p + count) (List.replicate (k + 1) .moved)) p
          (((xs.drop (p + count)).take k).map .full) := by
      have hlast : (overwrite cells (p + count) (List.replicate k Slot.moved)).set
          (p + count + (List.replicate k (Slot.moved : Slot α)).length) .moved = _ :=
        overwrite_set_last (by rw [List.length_replicate]; omega)
      have hbelow : (overwrite cells (p + count) (List.replicate k Slot.moved)).length = cells.length :=
        length_overwrite (by rw [List.length_replicate]; omega)
      rw [List.length_replicate, ← List.replicate_succ'] at hlast
      rw [closing, overwrite_set_behind (by rw [List.length_map]; omega)
        (by rw [List.length_map]; omega), Nat.add_right_comm, hlast]
    have hbelow' : (overwrite cells (p + count) (List.replicate (k + 1) Slot.moved)).length =
        cells.length := length_overwrite (by rw [List.length_replicate]; omega)
    have hnext : ((closing cells xs p count k).set (p + k + count) .moved).set (p + k)
        (.full xs[p + k + count]) = closing cells xs p count (k + 1) := by
      have hlast : (overwrite (overwrite cells (p + count) (List.replicate (k + 1) Slot.moved)) p
          (((xs.drop (p + count)).take k).map .full)).set
          (p + (((xs.drop (p + count)).take k).map (Slot.full : α → Slot α)).length)
          (.full xs[p + k + count]) = _ :=
        overwrite_set_last (by rw [List.length_map]; omega)
      have hindex : p + count + k = p + k + count := by omega
      rw [List.length_map, htaken] at hlast
      rw [hbehind, hlast, closing, List.take_add_one, List.getElem?_drop, hindex, hxs,
        Option.toList_some, List.map_append, List.map_singleton]
    rw [hnext] at hassign
    exact hmove.bind hassign

/-- When the last `count` places are raw nothing is left of the erased elements. -/
theorem overwrite_closing {p : ℕ} (hp : p + count ≤ xs.length) (hfits : xs.length ≤ cells.length) :
    overwrite (closing cells xs p count (xs.length - (p + count))) (p + (xs.length - (p + count)))
      (List.replicate count .raw) =
      overwrite cells p ((xs.drop (p + count)).map .full ++ List.replicate count .raw) := by
  have hdrop : ((xs.drop (p + count)).map (Slot.full : α → Slot α)).length = xs.length - (p + count) := by
    rw [List.length_map, List.length_drop]
  have hbelow : (overwrite cells (p + count)
      (List.replicate (xs.length - (p + count)) Slot.moved)).length = cells.length :=
    length_overwrite (by rw [List.length_replicate]; omega)
  have hjoined := overwrite_append (List.replicate count (Slot.raw : Slot α))
    (show p + ((xs.drop (p + count)).map (Slot.full : α → Slot α)).length +
      (List.replicate count (Slot.raw : Slot α)).length ≤ (overwrite cells (p + count)
        (List.replicate (xs.length - (p + count)) Slot.moved)).length by
      rw [hdrop, List.length_replicate]
      omega)
  rw [hdrop] at hjoined
  rw [closing, List.take_of_length_le (by rw [List.length_drop]), hjoined]
  refine overwrite_covered ?_ (Nat.le_add_right p count) ?_
  · rw [List.length_append, hdrop, List.length_replicate]
    omega
  · rw [List.length_append, hdrop, List.length_replicate, List.length_replicate]
    omega

/-- The erased places are destroyed at the end. -/
theorem Opened.returns_erase (hopened : Opened s v xs data cells) {p : ℕ}
    (hp : p + count ≤ xs.length) :
    Returns (forEach (destroyAt data) (p + (xs.length - (p + count))) count)
      (s.withCells data (closing cells xs p count (xs.length - (p + count))) s.lost) ()
      (s.withCells data (overwrite cells p
        ((xs.drop (p + count)).map .full ++ List.replicate count .raw)) s.lost) := by
  have hfits := hopened.fits
  have hall : p + count + (xs.length - (p + count)) ≤ xs.length := by omega
  have hlength := length_closing hall hfits
  have hdestroy := returns_destroy (Store.cellsAt_withCells s hopened.buffer hlength s.lost)
    (show p + (xs.length - (p + count)) + count ≤ _ by omega) fun k hk slot hslot => by
      obtain ⟨other, hother, hobject⟩ := hopened.object_closing hall (Nat.le_add_right _ k) (by omega)
      obtain rfl := Option.some.inj (hslot.symm.trans hother)
      exact hobject
  rw [Store.withCells_withCells, overwrite_closing hp hfits] at hdestroy
  exact hdestroy

/-! ## A gap between the elements -/

variable {p : ℕ}

/-- The elements from `p` on have moved up, and slot `p` is in the state `slot`. -/
def gapped (cells : List (Slot α)) (xs : List α) (p : ℕ) (slot : Slot α) : List (Slot α) :=
  overwrite cells p (slot :: (xs.drop p).map .full)

theorem length_gapped (hp : p ≤ xs.length) (hroom : xs.length < cells.length) (slot : Slot α) :
    (gapped cells xs p slot).length = cells.length :=
  length_overwrite (by rw [List.length_cons, List.length_map, List.length_drop]; omega)

theorem getElem?_gapped_self (hp : p ≤ xs.length) (hroom : xs.length < cells.length) (slot : Slot α) :
    (gapped cells xs p slot)[p]? = some slot := by
  rw [gapped, getElem?_overwrite (by rw [List.length_cons, List.length_map, List.length_drop]; omega),
    if_neg (lt_irrefl p), if_pos (by rw [List.length_cons]; omega), Nat.sub_self]
  rfl

theorem getElem?_gapped_of_lt (hp : p ≤ xs.length) (hroom : xs.length < cells.length) (slot : Slot α)
    (hbefore : i < p) : (gapped cells xs p slot)[i]? = cells[i]? := by
  rw [gapped, getElem?_overwrite (by rw [List.length_cons, List.length_map, List.length_drop]; omega),
    if_pos hbefore]

/-- Behind the gap stand the elements that moved up. -/
theorem getElem?_gapped_of_gt (hp : p ≤ xs.length) (hroom : xs.length < cells.length) (slot : Slot α)
    (hbehind : p < i) (hget : xs[i - 1]? = some x) :
    (gapped cells xs p slot)[i]? = some (.full x) := by
  have hlt := (List.getElem?_eq_some_iff.mp hget).1
  have hindex : i - p = i - 1 - p + 1 := by omega
  have hsource : p + (i - 1 - p) = i - 1 := by omega
  rw [gapped, getElem?_overwrite (by rw [List.length_cons, List.length_map, List.length_drop]; omega),
    if_neg (by omega), if_pos (by rw [List.length_cons, List.length_map, List.length_drop]; omega),
    hindex, List.getElem?_cons_succ, List.getElem?_map, List.getElem?_drop, hsource, hget,
    Option.map_some]

theorem gapped_set_self (hp : p ≤ xs.length) (hroom : xs.length < cells.length) (slot slot' : Slot α) :
    (gapped cells xs p slot).set p slot' = gapped cells xs p slot' := by
  have hset : (overwrite cells p (slot :: (xs.drop p).map .full)).set (p + 0) slot' = _ :=
    overwrite_set (Nat.succ_pos _) (by rw [List.length_cons, List.length_map, List.length_drop]; omega)
  exact hset

/-- One more element moves up. -/
theorem gapped_set_before (hp : p < xs.length) (hroom : xs.length < cells.length) :
    ((gapped cells xs (p + 1) .moved).set p .moved).set (p + 1) (.full xs[p]) =
      gapped cells xs p .moved := by
  have hbefore : (overwrite cells (p + 1) (Slot.moved :: (xs.drop (p + 1)).map .full)).set p .moved =
      overwrite cells p (.moved :: .moved :: (xs.drop (p + 1)).map .full) :=
    overwrite_set_before (by rw [List.length_cons, List.length_map, List.length_drop]; omega)
  have hinside : (overwrite cells p (Slot.moved :: .moved :: (xs.drop (p + 1)).map .full)).set (p + 1)
      (.full xs[p]) = overwrite cells p (.moved :: .full xs[p] :: (xs.drop (p + 1)).map .full) :=
    overwrite_set (by simp) (by
      rw [List.length_cons, List.length_cons, List.length_map, List.length_drop]
      omega)
  rw [gapped, hbefore, hinside, gapped, List.drop_eq_getElem_cons hp, List.map_cons]

/-- `openGap` leaves a raw slot at `p`. -/
theorem Opened.returns_openGap (hopened : Opened s v xs data cells) (hp : p < xs.length)
    (hroom : xs.length < cells.length) (alloc : ℕ) :
    Returns (openGap ⟨alloc, data, xs.length, cells.length⟩ p) s ()
      (s.withCells data (gapped cells xs p .raw) (s.lost + objects [cells[xs.length]])) := by
  have hbuffer := hopened.buffer
  -- the last element goes to the slot behind it
  have hlast : cells[xs.length - 1]? = some (.full xs[xs.length - 1]) :=
    hopened.getElem? (List.getElem?_eq_getElem (by omega))
  have hmove := returns_moveFrom hbuffer hlast
  have hmoved : (s.withCells data (cells.set (xs.length - 1) .moved) s.lost).heap.cellsAt data =
      some (cells.set (xs.length - 1) .moved) :=
    Store.cellsAt_withCells _ hbuffer List.length_set _
  have hslot : (cells.set (xs.length - 1) .moved)[xs.length]? = some cells[xs.length] := by
    rw [List.getElem?_set_ne (by omega), List.getElem?_eq_getElem hroom]
  have hconstruct := returns_construct hmoved hslot xs[xs.length - 1]
  have hstart : (cells.set (xs.length - 1) .moved).set xs.length (.full xs[xs.length - 1]) =
      gapped cells xs (xs.length - 1) .moved := by
    have hlt : xs.length - 1 < xs.length := by omega
    have hbefore : ((gapped cells xs (xs.length - 1 + 1) .moved).set (xs.length - 1) .moved).set
        (xs.length - 1 + 1) (.full xs[xs.length - 1]) = _ := gapped_set_before hlt hroom
    have hend : gapped cells xs xs.length .moved = cells.set xs.length .moved := by
      rw [gapped, List.drop_length, List.map_nil, set_eq_overwrite hroom]
    have hcomm : (cells.set xs.length Slot.moved).set (xs.length - 1) .moved =
        (cells.set (xs.length - 1) .moved).set xs.length .moved := List.set_comm _ _ (by omega)
    rw [Nat.sub_add_cancel (by omega), hend, hcomm, List.set_set] at hbefore
    exact hbefore
  rw [hstart, Store.withCells_withCells] at hconstruct
  -- each of the others goes to where the one behind it was
  have hstates : ∀ k < xs.length - 1 - p, Returns (do assignSlot data (p + k + 1) (← moveFrom data (p + k)))
      (s.withCells data (gapped cells xs (p + (k + 1)) .moved) (s.lost + objects [cells[xs.length]])) ()
      (s.withCells data (gapped cells xs (p + k) .moved) (s.lost + objects [cells[xs.length]])) := by
    intro k hk
    have hk' : p + k < xs.length := by omega
    have hlength : (gapped cells xs (p + (k + 1)) .moved).length = cells.length :=
      length_gapped (by omega) hroom _
    have hfrom : (gapped cells xs (p + (k + 1)) .moved)[p + k]? = some (.full xs[p + k]) := by
      rw [gapped, getElem?_overwrite (by rw [List.length_cons, List.length_map, List.length_drop]; omega),
        if_pos (by omega)]
      exact hopened.getElem? (List.getElem?_eq_getElem hk')
    have hmove' := returns_moveFrom (Store.cellsAt_withCells s hbuffer hlength
      (s.lost + objects [cells[xs.length]])) hfrom
    rw [Store.withCells_withCells] at hmove'
    have hto : ((gapped cells xs (p + (k + 1)) .moved).set (p + k) .moved)[p + k + 1]? = some .moved := by
      rw [List.getElem?_set_ne (by omega), Nat.add_assoc]
      exact getElem?_gapped_self (by omega) hroom _
    have hassign := returns_assignSlot
      (Store.cellsAt_withCells s hbuffer (List.length_set.trans hlength)
        (s.lost + objects [cells[xs.length]])) hto rfl xs[p + k]
    rw [Store.withCells_withCells] at hassign
    have hset : ((gapped cells xs (p + k + 1) .moved).set (p + k) .moved).set (p + k + 1)
        (.full xs[p + k]) = gapped cells xs (p + k) .moved := gapped_set_before hk' hroom
    rw [← Nat.add_assoc, hset] at hassign
    exact hmove'.bind hassign
  have hloop : Returns (forEachDown (fun k => do assignSlot data (k + 1) (← moveFrom data k)) p
      (xs.length - 1 - p)) _ () _ := returns_forEachDown (fun k => s.withCells data
        (gapped cells xs (p + k) .moved) (s.lost + objects [cells[xs.length]])) hstates
  rw [Nat.add_zero, Nat.add_sub_cancel' (by omega)] at hloop
  -- and the object at `p`, which was moved from, is destroyed
  have hdestroy := returns_destroyAt (Store.cellsAt_withCells s hbuffer
    (length_gapped hp.le hroom .moved) (s.lost + objects [cells[xs.length]]))
    (getElem?_gapped_self hp.le hroom .moved) rfl
  rw [Store.withCells_withCells, gapped_set_self hp.le hroom] at hdestroy
  exact hmove.bind (hconstruct.bind (hloop.bind hdestroy))

/-! ## Reallocation -/

variable [DecidableEq ι]

/-- The store after `reallocate(n)`. -/
def Store.reallocated (s : Store ι α) (v : ι) (data : Option ℕ) (cells : List (Slot α)) (xs : List α)
    (n : ℕ) : Store ι α :=
  ((s.withNew (moved n xs)).without data (s.lost + objects (cells.drop xs.length))).withVector v
    ⟨(s.vectors v).alloc, some s.heap.next, xs.length, n⟩

theorem Opened.returns_reallocate (hopened : Opened s v xs data cells) (hfits : xs.length ≤ n)
    (hgrants : s.Grants n) :
    Returns (reallocate v n) s () (s.reallocated v data cells xs n) := by
  have hthis : (s.withNew (List.replicate n .raw)).vectors v =
      ⟨(s.vectors v).alloc, data, xs.length, cells.length⟩ := hopened.vector
  have hthis' : ((s.withNew (moved n xs)).without data
      (s.lost + objects (cells.drop xs.length))).vectors v =
      ⟨(s.vectors v).alloc, data, xs.length, cells.length⟩ := hopened.vector
  exact (returns_allocate hgrants).bind ((returns_self hthis).bind
    ((hopened.returns_relocate hfits _).bind (returns_update hthis' _)))

/-- The vector has its elements in the new buffer. -/
theorem Opened.reallocated (hopened : Opened s v xs data cells) (hfits : xs.length ≤ n)
    (hgrants : s.Grants n) :
    Opened (s.reallocated v data cells xs n) v xs (some s.heap.next) (moved n xs) where
  vector := by
    rw [Store.reallocated, Store.vectors_withVector, length_moved hfits]
  buffer := (ArrayHeap.freeAt_arrays_of_ne hopened.ne_new).trans (ArrayHeap.alloc_arrays_next ..)
  small := by
    rw [length_moved hfits]
    exact hgrants.2.1
  front := front_moved n xs

theorem throws_reallocate (hrefused : ¬ s.Grants n) : ∃ error, Throws (reallocate v n) s error s := by
  obtain ⟨error, hthrows⟩ := throws_allocate hrefused
  exact ⟨error, hthrows.bind⟩

/-- The old buffer is not there any more. -/
theorem reallocated_released {addr : ℕ} (hdata : data = some addr) :
    (s.reallocated v data cells xs n).heap.arrays addr = none := by
  rw [hdata]
  exact ArrayHeap.freeAt_arrays_self

/-! ## Release -/

theorem Store.withVector_self {this : CppVector} (hthis : s.vectors v = this) :
    s.withVector v this = s := by
  rw [← hthis, Store.withVector, Function.update_eq_self]

/-- The elements are destroyed; the buffer stays. -/
theorem Opened.returns_clear (hopened : Opened s v xs data cells) :
    Returns (clear v) s () ((s.withCells data (overwrite cells 0 (List.replicate xs.length .raw))
      s.lost).withVector v ⟨(s.vectors v).alloc, data, 0, cells.length⟩) := by
  have hvector := hopened.vector
  cases data with
  | none =>
      obtain rfl : [] = cells := Option.some.inj hopened.buffer
      obtain rfl := List.length_eq_zero_iff.mp (Nat.le_zero.mp hopened.fits)
      have hkept : (s.withCells none (overwrite [] 0 (List.replicate 0 .raw)) s.lost).withVector v
          ⟨(s.vectors v).alloc, none, 0, 0⟩ = s := Store.withVector_self hvector
      refine (returns_self hvector).bind ?_
      simp only [List.length_nil, hkept]
      exact returns_pure () s
  | some addr =>
      have hdestroy := hopened.returns_destroy_from (Nat.zero_le _)
      rw [Nat.sub_zero] at hdestroy
      have hthis : (s.withCells (some addr) (overwrite cells 0 (List.replicate xs.length .raw))
          s.lost).vectors v = _ := hvector
      exact (returns_self hvector).bind (hdestroy.bind (returns_update hthis _))

/-- The buffer is released, and the vector still points to it. -/
theorem Opened.returns_release (hopened : Opened s v xs data cells) :
    Returns (release v) s () ((s.without data (s.lost + objects (cells.drop xs.length))).withVector v
      ⟨(s.vectors v).alloc, data, 0, cells.length⟩) := by
  have hlength : (overwrite cells 0 (List.replicate xs.length Slot.raw)).length = cells.length := by
    have hfits := hopened.fits
    exact length_overwrite (by rw [List.length_replicate]; omega)
  have hbuffer := Store.cellsAt_withCells s hopened.buffer hlength s.lost
  have hrelease : ∀ t : Store ι α, t.heap.cellsAt data =
      some (overwrite cells 0 (List.replicate xs.length .raw)) →
      Returns (deallocate data cells.length) t () (t.without data
        (t.lost + objects (cells.drop xs.length))) := by
    intro t ht
    have hdeallocate := returns_deallocate ht
    rwa [hlength, objects_emptied] at hdeallocate
  have hstore : (s.withCells data (overwrite cells 0 (List.replicate xs.length .raw)) s.lost).without
      data (s.lost + objects (cells.drop xs.length)) = s.without data _ := Store.withCells_without s
  rw [← hstore]
  exact hopened.returns_clear.bind ((returns_self (Store.vectors_withVector _)).bind
    (hrelease _ hbuffer))

omit [DecidableEq ι] in
/-- A vector without a buffer. -/
theorem opened_none {a : ℕ} (hvector : s.vectors v = ⟨a, none, 0, 0⟩) : Opened s v [] none [] where
  vector := by rw [hvector, List.length_nil, List.length_nil]
  buffer := rfl
  small := Nat.two_pow_pos 63
  front := List.nil_prefix

theorem Opened.returns_takeAllocator (hopened : Opened s v xs data cells) {a : ℕ}
    (hother : (s.vectors v).alloc ≠ a) :
    Returns (takeAllocator v a) s () ((s.without data
      (s.lost + objects (cells.drop xs.length))).withVector v ⟨a, none, 0, 0⟩) := by
  have hupdate := returns_update (s := (s.without data
    (s.lost + objects (cells.drop xs.length))).withVector v ⟨(s.vectors v).alloc, data, 0, cells.length⟩)
    (Store.vectors_withVector _) fun this => { this with alloc := a, data := none, capacity := 0 }
  rw [Store.withVector_withVector] at hupdate
  refine (returns_self hopened.vector).bind ?_
  rw [if_pos hother]
  exact hopened.returns_release.bind hupdate

theorem returns_takeAllocator_self : Returns (takeAllocator v (s.vectors v).alloc) s () s := by
  refine (returns_self rfl).bind ?_
  rw [if_neg (not_not_intro rfl)]
  exact returns_pure () s

/-! ## One more element -/

theorem toSize_succ {k : ℕ} (hsmall : k < 2 ^ 63) : toSize ((k : ℤ) + 1) = k + 1 := by
  rw [toSize]
  omega

/-- The store with one more element, of which the buffer is given. -/
def Store.extended (s : Store ι α) (v : ι) (data : Option ℕ) (cells : List (Slot α)) (lost size : ℕ) :
    Store ι α :=
  (s.withCells data cells lost).withVector v ⟨(s.vectors v).alloc, data, size, cells.length⟩

theorem Opened.returns_appendElement (hopened : Opened s v xs data cells)
    (hroom : xs.length < cells.length) {arg : Arg α} (hread : Returns arg.get s x s) :
    Returns (appendElement v arg) s ⟨data, xs.length⟩ (s.extended v data
      (cells.set xs.length (.full x)) (s.lost + objects [cells[xs.length]]) (xs.length + 1)) := by
  have hsmall : xs.length < 2 ^ 63 := hroom.trans hopened.small
  have hconstruct := returns_construct hopened.buffer (List.getElem?_eq_getElem hroom) x
  have hthis : (s.withCells data (cells.set xs.length (.full x))
      (s.lost + objects [cells[xs.length]])).vectors v = _ := hopened.vector
  have hupdate := returns_update hthis fun this => { this with size := toSize (this.size + 1) }
  dsimp only at hupdate
  rw [toSize_succ hsmall] at hupdate
  rw [Store.extended, List.length_set]
  exact (returns_self hopened.vector).bind (hread.bind (hconstruct.bind (hupdate.bind
    (returns_pure _ _))))

/-- A destroyed or released argument is read when the gap is there. -/
theorem Opened.stuck_insertElement (hopened : Opened s v xs data cells)
    (hroom : xs.length < cells.length) {p : ℕ} (hp : p < xs.length) {arg : Arg α}
    (hread : Stuck arg.get (s.withCells data (gapped cells xs p .raw)
      (s.lost + objects [cells[xs.length]]))) : Stuck (insertElement v p arg) s :=
  (returns_self hopened.vector).bind_stuck
    ((hopened.returns_openGap hp hroom (s.vectors v).alloc).bind_stuck hread.bind)

theorem Opened.returns_insertElement (hopened : Opened s v xs data cells)
    (hroom : xs.length < cells.length) {p : ℕ} (hp : p < xs.length) {arg : Arg α}
    (hread : Returns arg.get (s.withCells data (gapped cells xs p .raw)
      (s.lost + objects [cells[xs.length]])) x (s.withCells data (gapped cells xs p .raw)
      (s.lost + objects [cells[xs.length]]))) :
    Returns (insertElement v p arg) s ⟨data, p⟩ (s.extended v data (gapped cells xs p (.full x))
      (s.lost + objects [cells[xs.length]]) (xs.length + 1)) := by
  have hsmall : xs.length < 2 ^ 63 := hroom.trans hopened.small
  have hgap := hopened.returns_openGap hp hroom (s.vectors v).alloc
  have hconstruct := returns_construct (Store.cellsAt_withCells s hopened.buffer
    (length_gapped hp.le hroom .raw) (s.lost + objects [cells[xs.length]]))
    (getElem?_gapped_self hp.le hroom .raw) x
  rw [Store.withCells_withCells, gapped_set_self hp.le hroom] at hconstruct
  have hthis : (s.withCells data (gapped cells xs p (.full x))
      (s.lost + objects [cells[xs.length]])).vectors v = _ := hopened.vector
  have hupdate := returns_update hthis fun this => { this with size := toSize (this.size + 1) }
  dsimp only at hupdate
  rw [toSize_succ hsmall] at hupdate
  rw [Store.extended, length_gapped hp.le hroom]
  exact (returns_self hopened.vector).bind (hgap.bind (hread.bind (hconstruct.bind (hupdate.bind
    (returns_pure _ _)))))

omit [DecidableEq ι] in
/-- The new elements all get the value of the argument. -/
theorem Opened.returns_fillUp (hopened : Opened s v xs data cells) (hfits : n ≤ cells.length)
    (hlonger : xs.length ≤ n) {arg : Arg α}
    (hreads : ∀ k ≤ n - xs.length, ∀ lost, Returns arg.get
      (s.withCells data (overwrite cells xs.length (List.replicate k (.full x))) lost) x
      (s.withCells data (overwrite cells xs.length (List.replicate k (.full x))) lost)) :
    Returns (fillUp v n arg) s ()
      (s.withCells data (overwrite cells xs.length (List.replicate (n - xs.length) (.full x)))
        (s.lost + objects ((cells.drop xs.length).take (n - xs.length)))) := by
  have hloop : Returns (forEach (fun k => do construct data k (← arg.get)) xs.length
      (List.replicate (n - xs.length) x).length) s () _ :=
    returns_forEach_construct hopened.buffer
      (by rw [List.length_replicate]; omega) fun k hk lost => by
        rw [List.length_replicate] at hk
        rw [List.map_replicate, List.take_replicate, List.getElem_replicate]
        exact hreads _ (Nat.min_le_right _ _) lost
  rw [List.map_replicate, List.length_replicate] at hloop
  exact (returns_self hopened.vector).bind hloop

theorem doubled_spec {capacity : ℕ} (hsmall : capacity < 2 ^ 63) : capacity < doubled capacity := by
  rw [doubled]
  split_ifs with hzero
  · omega
  · rw [toSize]
    omega

theorem Opened.returns_growIfFull_of_room (hopened : Opened s v xs data cells)
    (hroom : xs.length < cells.length) : Returns (growIfFull v) s () s := by
  refine (returns_self hopened.vector).bind ?_
  rw [if_neg (Nat.not_le.mpr hroom)]
  exact returns_pure () s

theorem Opened.returns_growIfFull (hopened : Opened s v xs data cells)
    (hfull : cells.length ≤ xs.length) (hgrants : s.Grants (doubled cells.length)) :
    Returns (growIfFull v) s () (s.reallocated v data cells xs (doubled cells.length)) := by
  have hgrow := doubled_spec hopened.small
  have hfits : xs.length ≤ doubled cells.length := hopened.fits.trans hgrow.le
  refine (returns_self hopened.vector).bind ?_
  rw [if_pos hfull]
  exact hopened.returns_reallocate hfits hgrants

theorem Opened.throws_growIfFull (hopened : Opened s v xs data cells)
    (hfull : cells.length ≤ xs.length) (hrefused : ¬ s.Grants (doubled cells.length)) :
    ∃ error, Throws (growIfFull v) s error s := by
  obtain ⟨error, hthrows⟩ := throws_reallocate (v := v) hrefused
  refine ⟨error, (returns_self hopened.vector).bind_throws ?_⟩
  rw [if_pos hfull]
  exact hthrows

end CppVector

end CppProjects
