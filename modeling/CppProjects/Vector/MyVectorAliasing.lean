import CppProjects.Vector.MyVectorSequence

/-!
# Elements of a `myVector` as arguments

`push_back`, `assign`, `resize` and `insert` take a `const T &`, which may refer
to an element of the vector itself.  What they do then is compared with what they
do with a copy of the element.
-/

namespace CppProjects

open CInt Program

namespace MyVector

variable {ι α : Type} {s s' : Store ι α} {x y : α} {arg : Arg α} {block data : Option ℕ} {i p : ℕ}

/-! ## Reading the argument -/

/-- The argument has the value `x` now. -/
def Reads (arg : Arg α) (x : α) (s : Store ι α) : Prop := Returns arg.get s (some x) s

theorem reads_temp (x : α) (s : Store ι α) : Reads (.temp x) x s := returns_pure _ s

theorem reads_slot (hslot : s.heap.readAt block i = some (some x)) : Reads (.slot block i) x s :=
  (returns_get s).bind (returns_defined hslot s)

theorem Reads.readAt (hreads : Reads (.slot block i) x s) : s.heap.readAt block i = some (some x) := by
  obtain ⟨t, s₁, hget, hdefined⟩ := Returns.bind_inv hreads
  obtain ⟨rfl, rfl⟩ := hget.get_inv
  exact hdefined.defined_inv.1

theorem Reads.unique (hreads : Reads arg x s) (hreads' : Reads arg y s) : x = y :=
  Option.some.inj (Returns.unique hreads hreads').1

/-- What `store` has done. -/
theorem returned_store {k : ℤ} {value : Option α} {u : Unit}
    (hstore : Returns (store data k value) s u s') :
    ∃ heap, s.heap.writeAt data k value = some heap ∧ s' = { s with heap := heap } := by
  obtain ⟨t, s₁, hget, h₁⟩ := hstore.bind_inv
  obtain ⟨rfl, rfl⟩ := hget.get_inv
  obtain ⟨heap, s₂, hdefined, hset⟩ := h₁.bind_inv
  obtain ⟨hheap, rfl⟩ := hdefined.defined_inv
  exact ⟨heap, hheap, (Returns.unique hset rfl).2⟩

/-- Assigning the value of an argument to any slot does not change the argument. -/
theorem reads_of_store {k : ℤ} {u : Unit} (hreads : Reads (.slot block i) x s)
    (hstore : Returns (store data k (some x)) s u s') : Reads (.slot block i) x s' := by
  obtain ⟨heap, hheap, rfl⟩ := returned_store hstore
  refine reads_slot ?_
  rw [ArrayHeap.readAt_of_writeAt hheap]
  split_ifs
  · rfl
  · exact hreads.readAt

/-- Assigning to a slot of another array does not change the argument. -/
theorem preserves_store_other (hother : block ≠ data) (k : ℤ) (value : Option α) :
    Preserves (store data k value : M ι α Unit) (Reads (.slot block i) x) := by
  intro s u s' hreads hstore
  obtain ⟨heap, hheap, rfl⟩ := returned_store hstore
  refine reads_slot ?_
  rw [ArrayHeap.readAt_of_writeAt hheap, if_neg fun heq => hother heq.1]
  exact hreads.readAt

theorem preserves_load {P : Store ι α → Prop} (k : ℤ) : Preserves (load data k : M ι α _) P :=
  (preserves_get P).bind fun _ => preserves_defined _ P

/-- A loop that copies an array to another one does not change an argument that is
not in the other one. -/
theorem preserves_copy {source : Option ℕ} (hother : block ≠ data) (start : ℤ) (count : ℕ) :
    Preserves (forUp (fun k => do store data k (← load source k)) start count : M ι α Unit)
      (Reads (.slot block i) x) :=
  preserves_forUp (fun k => (preserves_load k).bind fun _ => preserves_store_other hother k _) _ _

/-! ## Filling slots -/

/-- A loop that assigns an argument to one place after another.  It keeps its value
even where it is one of them. -/
theorem sameRun_fill (hreads : Reads (.slot block i) x s) (target : ℤ → M ι α ℤ)
    (htarget : ∀ k, Preserves (target k) (Reads (.slot block i) x)) (start : ℤ) (count : ℕ) :
    SameRun (forUp (fun k => do
        let place ← target k
        store data place (← (Arg.slot block i).get)) start count)
      (forUp (fun k => do
        let place ← target k
        store data place (← (Arg.temp x).get)) start count) s := by
  refine sameRun_forUp (P := Reads (.slot block i) x) ?_ ?_ start count hreads
  · intro k t ht
    refine (SameRun.refl _ t).bind fun place t₁ hplace => ?_
    exact (Returns.sameRun (htarget k t _ _ ht hplace) (reads_temp x t₁)).bind fun _ _ _ => .refl _ _
  · intro k t u t' ht hturn
    obtain ⟨place, t₁, hplace, h₁⟩ := hturn.bind_inv
    have ht₁ := htarget k t _ _ ht hplace
    obtain ⟨value, t₂, hget, hstore⟩ := h₁.bind_inv
    obtain ⟨rfl, rfl⟩ := hget.unique ht₁
    exact reads_of_store ht₁ hstore

theorem sameRun_fill_at (hreads : Reads (.slot block i) x s) (start : ℤ) (count : ℕ) :
    SameRun (forUp (fun k => do store data k (← (Arg.slot block i).get)) start count)
      (forUp (fun k => do store data k (← (Arg.temp x).get)) start count) s :=
  sameRun_fill hreads pure (fun _ => preserves_pure _ _) start count

/-! ## Elements of the vector -/

variable {lists : ι → List α} {v : ι} {cells cells' : List (Option α)} {xs : List α}

theorem Opened.getElem? (hopened : Opened s v xs data cells) (hget : xs[i]? = some x) :
    cells[i]? = some (some x) := by
  have hlt : i < xs.length := (List.getElem?_eq_some_iff.mp hget).1
  rw [← List.getElem?_take_of_lt hlt, hopened.elements, List.getElem?_map, hget]
  rfl

theorem reads_cell (hcells : s.heap.cellsAt data = some cells) (hget : cells[i]? = some (some x)) :
    Reads (.slot data i) x s := by
  obtain ⟨hlt, hcell⟩ := List.getElem?_eq_some_iff.mp hget
  refine reads_slot ?_
  rw [ArrayHeap.readAt_of_lt hcells hlt, hcell]

theorem Opened.reads (hopened : Opened s v xs data cells) (hget : xs[i]? = some x) :
    Reads (.slot data i) x s :=
  reads_cell hopened.buffer (hopened.getElem? hget)

/-! ## New arrays -/

theorem Reads.ne_new (hreads : Reads (.slot block i) x s) : block ≠ some s.heap.next := by
  rintro rfl
  have hread := hreads.readAt
  rw [ArrayHeap.readAt, Option.bind_some, ArrayHeap.read, s.heap.fresh _ le_rfl] at hread
  cases hread

/-- What `new T[n]` has done. -/
theorem returned_newArray {n addr : ℕ} (hnew : Returns (newArray n) s addr s') :
    s.refuses s.heap.next = false ∧ addr = s.heap.next ∧
      s' = s.withNew (List.replicate n none) := by
  by_cases hrefuses : s.refuses s.heap.next
  · obtain ⟨t, s₁, hget, h₁⟩ := hnew.bind_inv
    obtain ⟨ht, -⟩ := hget.get_inv
    rw [ht, if_pos hrefuses] at h₁
    cases h₁
  · have hmemory : s.refuses s.heap.next = false := by rwa [Bool.not_eq_true] at hrefuses
    obtain ⟨haddr, hs'⟩ := hnew.unique (returns_newArray hmemory n)
    exact ⟨hmemory, haddr, hs'⟩

theorem Reads.withNew (hreads : Reads (.slot block i) x s) (buffer : List (Option α)) :
    Reads (.slot block i) x (s.withNew buffer) := by
  have hne := hreads.ne_new
  refine reads_slot ?_
  rw [← hreads.readAt]
  cases block with
  | none => rfl
  | some addr =>
      have hother : addr ≠ s.heap.next := fun heq => hne (by rw [heq])
      rw [ArrayHeap.readAt, Option.bind_some, ArrayHeap.read, Store.withNew,
        ArrayHeap.alloc_arrays_of_ne hother]
      rfl

variable [DecidableEq ι]

theorem preserves_update (f : MyVector → MyVector) :
    Preserves (update v f) (Reads (.slot block i) x) := by
  intro s u s' hreads hupdate
  obtain ⟨-, rfl⟩ := hupdate.unique (returns_update rfl f)
  exact reads_slot hreads.readAt

theorem preserves_growCapacity (needed : ℕ) :
    Preserves (growCapacity v needed) (Reads (.slot block i) x) := by
  refine Preserves.bind ?_ fun this => ?_
  · exact (preserves_get _).bind fun _ => preserves_pure _ _
  · exact (preserves_defined _ _).bind fun _ => preserves_update _

/-- A move to a larger array that is given the argument while the old array is
still there. -/
theorem sameRun_grown {β : Type} {next next' : ℕ → M ι α β} (needed : ℕ)
    (hreads : Reads (.slot block i) x s)
    (hnext : ∀ addr t, block ≠ some addr → Reads (.slot block i) x t →
      SameRun (next addr) (next' addr) t) :
    SameRun (do
        growCapacity v needed
        let addr ← newArray (← self v).mCapacity
        next addr)
      (do
        growCapacity v needed
        let addr ← newArray (← self v).mCapacity
        next' addr) s := by
  refine (SameRun.refl _ s).bind fun _ s₁ hgrow => ?_
  have hreads₁ := preserves_growCapacity needed s _ s₁ hreads hgrow
  refine (returns_self rfl).sameRun_bind.mpr ?_
  refine (SameRun.refl _ s₁).bind fun addr s₂ hnew => ?_
  obtain ⟨-, rfl, rfl⟩ := returned_newArray hnew
  exact hnext _ _ hreads₁.ne_new (hreads₁.withNew _)

/-! ## Elements of the vector -/

/-- Once the old buffer is released its elements cannot be read. -/
theorem stuck_released (this : MyVector) :
    Stuck (Arg.slot data i).get (moved s v data cells' this) := by
  refine (returns_get _).bind_stuck (stuck_defined ?_ _)
  cases data with
  | none => rfl
  | some addr =>
      have hfreed : (moved s v (some addr) cells' this).heap.arrays addr = none :=
        Function.update_self ..
      rw [ArrayHeap.readAt, Option.bind_some, ArrayHeap.read, hfreed]
      rfl

/-- `push_back` into a full buffer reads the element when it has released the
buffer. -/
theorem pushBack_own_iff (hopened : Opened s v xs data cells) (hget : xs[i]? = some x) :
    SameRun (pushBack v (.slot data i)) (pushBack v (.temp x)) s ↔
      xs.length < cells.length ∨ s.refuses s.heap.next = true := by
  rw [pushBack, pushBack, (returns_self hopened.vector).sameRun_bind]
  dsimp only
  by_cases hroom : xs.length < cells.length
  · rw [if_pos hroom, if_pos hroom]
    refine iff_of_true ?_ (.inl hroom)
    exact (Returns.sameRun (hopened.reads hget) (reads_temp x s)).bind fun _ _ _ => .refl _ _
  · rw [if_neg hroom, if_neg hroom, (returns_update hopened.vector _).sameRun_bind]
    dsimp only
    rcases hmemory : s.refuses s.heap.next with _ | _
    · have hfull := hopened.fits
      have hcapacity : cells.length < 2 ^ 31 := (not_lt.mp hroom).trans_lt hopened.small
      have hgrow := (doubled_spec hcapacity).1
      have hfits : xs.length ≤ doubled cells.length := by omega
      have hlast : xs.length < (copied (doubled cells.length) xs).length := by
        rw [length_copied hfits]
        omega
      have hcopy := hopened.returns_copy ⟨data, xs.length, doubled cells.length⟩ hfits le_rfl
      rw [List.take_length] at hcopy
      rw [(returns_newArray_moving hmemory _).sameRun_bind, hcopy.sameRun_bind,
        hopened.returns_release.sameRun_bind, (returns_update_moved _).sameRun_bind]
      have hstore := returns_store (hopened.cellsAt_moved
        ⟨some s.heap.next, xs.length, doubled cells.length⟩) hlast (some x)
      rw [hopened.moved_withCells] at hstore
      refine iff_of_false ?_ ?_
      · exact Stuck.not_sameRun (stuck_released _).bind
          ((reads_temp x _).bind (hstore.bind (returns_update_moved _)))
      · rintro (hlt | htrue)
        · exact hroom hlt
        · cases htrue
    · refine iff_of_true ?_ (.inr rfl)
      refine (SameRun.refl _ _).bind fun addr s₁ hnew => ?_
      have hrefused := (returned_newArray hnew).1
      exact absurd (hmemory.symm.trans hrefused) (by decide)

/-- Without a positive count the argument of `assign` is never read. -/
theorem assign_of_nonpos {n : ℤ} (hn : n ≤ 0) (arg arg' : Arg α) :
    assign v n arg = assign v n arg' := by
  simp only [assign, Int.toNat_of_nonpos hn, forUp]

/-- `assign` into a larger buffer reads the element when it has released the old
one. -/
theorem assign_own_iff (hopened : Opened s v xs data cells) (hget : xs[i]? = some x) {n : ℤ}
    (hn : FitsInt n) :
    SameRun (assign v n (.slot data i)) (assign v n (.temp x)) s ↔
      n ≤ cells.length ∨ s.refuses s.heap.next = true := by
  rcases le_or_gt n 0 with hnonpos | hpos
  · rw [assign_of_nonpos hnonpos (.slot data i) (.temp x)]
    exact iff_of_true (.refl _ s) (.inl (hnonpos.trans (Int.natCast_nonneg _)))
  obtain ⟨m, rfl⟩ := Int.eq_ofNat_of_zero_le hpos.le
  have hsmall : m < 2 ^ 31 := by have := hn.2; omega
  rw [assign, assign, (returns_self hopened.vector).sameRun_bind, toSize_natCast_small hsmall,
    Int.toNat_natCast, Nat.cast_le]
  dsimp only
  by_cases hroom : m ≤ cells.length
  · rw [if_pos hroom, if_pos hroom]
    refine iff_of_true ?_ (.inl hroom)
    exact (sameRun_fill_at (hopened.reads hget) _ _).bind fun _ _ _ => .refl _ _
  · have hthis : ((s.without data).withVector v ⟨none, 0, 0⟩).vectors v = ⟨none, 0, 0⟩ :=
      Store.vectors_withVector _
    obtain ⟨grown, hgrow, hfits, -, -⟩ := returns_growCapacity hsmall hthis (by decide)
    rw [Store.withVector_withVector] at hgrow
    rw [if_neg hroom, if_neg hroom, hopened.returns_discard.sameRun_bind, hgrow.sameRun_bind,
      (returns_self (Store.vectors_withVector _)).sameRun_bind]
    dsimp only
    rcases hmemory : s.refuses s.heap.next with _ | _
    · have hbuffer : (moved s v data (List.replicate grown none)
          ⟨some s.heap.next, 0, grown⟩).heap.cellsAt (some s.heap.next) = _ :=
        hopened.cellsAt_moved _
      have hfill := returns_fill hbuffer (.temp (x := x)) 0 m
        (by rw [List.length_replicate]; omega) (by omega)
      rw [hopened.moved_withCells] at hfill
      rw [(hopened.returns_newArray_discarded hmemory _).sameRun_bind,
        (returns_update_moved _).sameRun_bind]
      obtain ⟨rest, rfl⟩ : ∃ rest, m = rest + 1 := ⟨m - 1, by omega⟩
      refine iff_of_false ?_ ?_
      · exact Stuck.not_sameRun (stuck_released _).bind.bind.bind
          (hfill.bind (returns_update_moved _))
      · rintro (hle | htrue)
        · exact hroom hle
        · cases htrue
    · refine iff_of_true ?_ (.inr rfl)
      refine (SameRun.refl _ _).bind fun addr s₁ hnew => ?_
      have hrefused : s.refuses (s.without data).heap.next = false := (returned_newArray hnew).1
      rw [Store.next_without, hmemory] at hrefused
      cases hrefused

/-- `resize` reads the element while it is still there. -/
theorem resize_own (hopened : Opened s v xs data cells) (hget : xs[i]? = some x) (n : ℤ) :
    SameRun (resize v n (.slot data i)) (resize v n (.temp x)) s := by
  have hreads := hopened.reads hget
  rw [resize, resize, (returns_self hopened.vector).sameRun_bind]
  dsimp only
  split_ifs
  · exact .refl _ s
  · exact (sameRun_fill_at hreads _ _).bind fun _ _ _ => .refl _ _
  · refine sameRun_grown _ hreads fun addr t hne ht => ?_
    refine (SameRun.refl _ t).bind fun _ t₁ hcopy => ?_
    have ht₁ := preserves_copy hne _ _ t _ t₁ ht hcopy
    exact (sameRun_fill_at ht₁ _ _).bind fun _ _ _ => .refl _ _

theorem insert_of_nonpos {n : ℤ} (hn : n ≤ 0) (pos : Iterator) (arg arg' : Arg α) :
    insert v pos n arg = insert v pos n arg' := by
  simp only [insert, Int.toNat_of_nonpos hn, forUp]

/-- A new buffer is filled while the old one is still there. -/
theorem insert_moved_own (hopened : Opened s v xs data cells) (hget : xs[i]? = some x)
    (hp : p ≤ xs.length) {n : ℤ} (hroom : ¬ toSize (xs.length + n) ≤ cells.length) :
    SameRun (insert v ⟨data, p⟩ n (.slot data i)) (insert v ⟨data, p⟩ n (.temp x)) s := by
  rw [insert, insert, (returns_self hopened.vector).sameRun_bind,
    (hopened.returns_distance_begin hp).sameRun_bind, if_neg hroom, if_neg hroom]
  refine sameRun_grown _ (hopened.reads hget) fun addr t hne ht => ?_
  refine (SameRun.refl _ t).bind fun _ t₁ hcopy => ?_
  have ht₁ := preserves_copy hne _ _ t _ t₁ ht hcopy
  exact (sameRun_fill ht₁ _ (fun _ => preserves_intExpr _ _) _ _).bind fun _ _ _ => .refl _ _

omit [DecidableEq ι] in
/-- The slot of an element once the elements from `p` on have moved up by `m`. -/
theorem Opened.shifted_getElem? (hopened : Opened s v xs data cells) (hget : xs[i]? = some x)
    (hp : p ≤ xs.length) {m : ℕ} (hroom : xs.length + m ≤ cells.length) :
    (overwrite cells (p + m) ((xs.drop p).map some))[i]? =
      if i < p + m then some (some x) else xs[i - m]?.map some := by
  have hlt : i < xs.length := (List.getElem?_eq_some_iff.mp hget).1
  have hlength : ((xs.drop p).map some).length = xs.length - p := by
    rw [List.length_map, List.length_drop]
  rw [getElem?_overwrite (by omega), hlength]
  by_cases hbefore : i < p + m
  · rw [if_pos hbefore, if_pos hbefore, hopened.getElem? hget]
  · rw [if_neg hbefore, if_neg hbefore, if_pos (by omega), List.getElem?_map, List.getElem?_drop,
      show p + (i - (p + m)) = i - m by omega]

/-- Two ways to the same end have left the same memory when the fields are set. -/
theorem heap_eq_of_sameRun {first second : M ι α Unit} {s₁ s₂ : Store ι α}
    {f : MyVector → MyVector} {it : Iterator}
    (hsame : SameRun (do first; update v f; return it) (do second; update v f; return it) s)
    (hfirst : Returns first s () s₁) (hsecond : Returns second s () s₂) : s₁.heap = s₂.heap := by
  have hend : ∀ t : Store ι α, Returns (do update v f; return it) t it _ := fun t =>
    (returns_update rfl f).bind (returns_pure it _)
  have hfinal := ((hsame.returns (hfirst.bind (hend s₁))).unique (hsecond.bind (hend s₂))).2
  have hheap := congrArg Store.heap hfinal
  exact hheap

/-- Filling a gap with the element in a slot is filling it with what the slot holds
now. -/
theorem sameRun_gap_iff {m : ℕ} {f : MyVector → MyVector} {it : Iterator}
    (hcells : s.heap.cellsAt data = some cells) (hslot : cells[i]? = some (some y)) (hm : 0 < m)
    (hfits : p + m ≤ cells.length) (hsmall : p + m < 2 ^ 31) :
    SameRun (do
        forUp (fun k => do
          let target ← intExpr (k + p)
          store data target (← (Arg.slot data i).get)) 0 m
        update v f
        return it)
      (do
        forUp (fun k => do
          let target ← intExpr (k + p)
          store data target (← (Arg.temp x).get)) 0 m
        update v f
        return it) s ↔ y = x := by
  constructor
  · intro hsame
    have hfill : ∀ z, Returns _ s () _ := fun z =>
      returns_fill_shifted hcells (.temp (x := z)) p m hfits hsmall
    have hown := (sameRun_fill (reads_cell hcells hslot) _
      (fun _ => preserves_intExpr _ _) 0 m).symm.returns (hfill y)
    have hheap := heap_eq_of_sameRun hsame hown (hfill x)
    have hfilled : ∀ z, (s.withCells data (overwrite cells p
        (List.replicate m (some z)))).heap.cellsAt data = some _ := fun z =>
      ArrayHeap.cellsAt_replaceAt hcells (length_overwrite (by rwa [List.length_replicate]))
    have hbuffers : overwrite cells p _ = overwrite cells p _ := Option.some.inj
      ((hfilled y).symm.trans ((congrArg (·.cellsAt data) hheap).trans (hfilled x)))
    have hfirst := congrArg (·[p]?) hbuffers
    rw [getElem?_overwrite_replicate hm hfits, getElem?_overwrite_replicate hm hfits] at hfirst
    exact Option.some.inj (Option.some.inj hfirst)
  · rintro rfl
    exact (sameRun_fill (reads_cell hcells hslot) _ (fun _ => preserves_intExpr _ _) _ _).bind
      fun _ _ _ => .refl _ _

omit [DecidableEq ι] in
/-- A shift that would need an index no `int` has returns only if it moves nothing. -/
theorem shift_right_returns (hp : p ≤ xs.length) {m : ℕ} (hlarge : 2 ^ 31 ≤ xs.length + m)
    {body : ℤ → ℤ → M ι α Unit} {u : Unit}
    (hshift : Returns (forDown (fun k => do
      let target ← intExpr (k + m)
      body k target) xs.length (xs.length - p)) s u s') : p = xs.length ∧ s' = s := by
  cases hcount : xs.length - p with
  | zero =>
      rw [hcount] at hshift
      exact ⟨by omega, hshift.pure_inv.2⟩
  | succ rest =>
      have hoverflow : ¬ FitsInt ((xs.length : ℤ) + m) := fun hfits => by
        have hhigh := hfits.2
        omega
      rw [hcount] at hshift
      exact absurd hshift (stuck_intExpr hoverflow s).bind.bind.not_returns

/-- In its own buffer `insert` moves the elements before it reads the argument. -/
theorem insert_inPlace_own_iff (hopened : Opened s v xs data cells) (hget : xs[i]? = some x)
    (hp : p ≤ xs.length) {m : ℕ} (hm : 0 < m) (hroom : xs.length + m ≤ cells.length) :
    SameRun (insert v ⟨data, p⟩ m (.slot data i)) (insert v ⟨data, p⟩ m (.temp x)) s ↔
      2 ^ 31 ≤ xs.length + m ∨ i < p + m ∨ xs[i - m]? = some x := by
  have hsize : toSize ((xs.length : ℤ) + m) = xs.length + m := by
    have hcapacity := hopened.capacity
    exact_mod_cast toSize_natCast (show xs.length + m < 2 ^ 64 by omega)
  have hcount : ((xs.length : ℤ) - p).toNat = xs.length - p := by omega
  rw [insert, insert, (returns_self hopened.vector).sameRun_bind,
    (hopened.returns_distance_begin hp).sameRun_bind]
  dsimp only
  rw [hsize, if_pos hroom, if_pos hroom, toInt_natCast_small hopened.small, hcount,
    Int.toNat_natCast]
  rcases le_or_gt (2 ^ 31) (xs.length + m) with hlarge | hsmall
  · refine iff_of_true ?_ (.inl hlarge)
    refine (SameRun.refl _ s).bind fun _ s₁ hshift => ?_
    obtain ⟨-, rfl⟩ := shift_right_returns hp hlarge hshift
    exact (sameRun_fill (hopened.reads hget) _ (fun _ => preserves_intExpr _ _) _ _).bind
      fun _ _ _ => .refl _ _
  · have hlt : i < xs.length := (List.getElem?_eq_some_iff.mp hget).1
    have hshift := returns_shift_right hopened.buffer hp hroom hsmall
    rw [hopened.tail] at hshift
    have hshifted : (overwrite cells (p + m) ((xs.drop p).map some)).length = cells.length :=
      length_overwrite (by rw [List.length_map, List.length_drop]; omega)
    have hbuffer : (s.withCells data (overwrite cells (p + m)
        ((xs.drop p).map some))).heap.cellsAt data = some _ :=
      ArrayHeap.cellsAt_replaceAt hopened.buffer hshifted
    have hslot := hopened.shifted_getElem? hget hp hroom
    rw [hshift.sameRun_bind]
    by_cases hbefore : i < p + m
    · rw [if_pos hbefore] at hslot
      exact iff_of_true ((sameRun_gap_iff hbuffer hslot hm (by omega) (by omega)).mpr rfl)
        (.inr (.inl hbefore))
    · -- The slot holds another element by now.
      have hmoved := List.getElem?_eq_getElem (show i - m < xs.length by omega)
      rw [if_neg hbefore, hmoved, Option.map_some] at hslot
      rw [sameRun_gap_iff hbuffer hslot hm (by omega) (by omega), hmoved, Option.some.injEq]
      constructor
      · exact fun heq => .inr (.inr heq)
      · rintro (hlarge | hinside | heq)
        · omega
        · exact absurd hinside hbefore
        · exact heq

/-! ## Operations given an element -/

/-- The operations that take a value by reference. -/
inductive Taking
  | pushBack
  | assign (n : ℤ)
  | resize (n : ℤ)
  | insert (pos : ℕ) (n : ℤ)
deriving DecidableEq, Repr

/-- The operation on `v` does the same with both arguments: the same memory, the
same vectors, the same exception and the same position returned, or no outcome
with either. -/
def Taking.Agrees (s : Store ι α) (v : ι) (own copy : Arg α) : Taking → Prop
  | .pushBack => SameRun (MyVector.pushBack v own) (MyVector.pushBack v copy) s
  | .assign n => SameRun (MyVector.assign v n own) (MyVector.assign v n copy) s
  | .resize n => SameRun (MyVector.resize v n own) (MyVector.resize v n copy) s
  | .insert pos n => SameRun (MyVector.insert v ⟨(s.vectors v).mData, pos⟩ n own)
      (MyVector.insert v ⟨(s.vectors v).mData, pos⟩ n copy) s

/-- Counts are `int`s and positions are within the vector. -/
def Taking.Valid (size : ℕ) : Taking → Prop
  | .pushBack => True
  | .assign n => FitsInt n
  | .resize n => FitsInt n
  | .insert pos n => FitsInt n ∧ pos ≤ size

/-- The calls that can be given the element at `i`: `push_back` and `assign` do
not come to ask for a new buffer, or are refused it, and an `insert` that fills a
gap in its own buffer finds the element below the gap's end, or an equal one in
its place, or overflows an `int` before it looks. -/
def Taking.Safe (this : MyVector) (refused : Bool) (xs : List α) (i : ℕ) : Taking → Prop
  | .pushBack => this.mSize < this.mCapacity ∨ refused = true
  | .assign n => n ≤ this.mCapacity ∨ refused = true
  | .resize _ => True
  | .insert pos n => n ≤ 0 ∨ this.mCapacity < this.mSize + n ∨ 2 ^ 31 ≤ this.mSize + n ∨
      i < pos + n ∨ xs[(i - n).toNat]? = xs[i]?

/-- An operation given an element of its vector does what it does with a copy of
it exactly in the safe calls. -/
theorem own_element_iff (hholds : Holds s.heap (s.vectors v) xs) (hget : xs[i]? = some x)
    (op : Taking) (hvalid : op.Valid xs.length) :
    op.Agrees s v (.slot (s.vectors v).mData i) (.temp x) ↔
      op.Safe (s.vectors v) (s.refuses s.heap.next) xs i := by
  obtain ⟨data, cells, hopened⟩ := hholds.opened
  cases op with
  | pushBack =>
      rw [Taking.Agrees, Taking.Safe, hopened.vector]
      exact pushBack_own_iff hopened hget
  | assign n =>
      rw [Taking.Agrees, Taking.Safe, hopened.vector]
      exact assign_own_iff hopened hget hvalid
  | resize n =>
      rw [Taking.Agrees, Taking.Safe, hopened.vector]
      exact iff_true_intro (resize_own hopened hget n)
  | insert pos n =>
      obtain ⟨hn, hpos⟩ := hvalid
      rw [Taking.Agrees, Taking.Safe, hopened.vector]
      dsimp only
      rcases le_or_gt n 0 with hnonpos | hpositive
      · rw [insert_of_nonpos hnonpos _ (.slot data i) (.temp x)]
        exact iff_of_true (.refl _ s) (.inl hnonpos)
      obtain ⟨m, rfl⟩ := Int.eq_ofNat_of_zero_le hpositive.le
      have hsize : toSize ((xs.length : ℤ) + m) = xs.length + m := by
        have hsmall := hopened.small
        have hhigh := hn.2
        exact_mod_cast toSize_natCast (show xs.length + m < 2 ^ 64 by omega)
      have hindex : ((i : ℤ) - m).toNat = i - m := by omega
      rw [hget, hindex]
      by_cases hroom : xs.length + m ≤ cells.length
      · rw [insert_inPlace_own_iff hopened hget hpos (by omega) hroom]
        constructor
        · rintro (hlarge | hbelow | hequal)
          · exact .inr (.inr (.inl (by exact_mod_cast hlarge)))
          · exact .inr (.inr (.inr (.inl (by exact_mod_cast hbelow))))
          · exact .inr (.inr (.inr (.inr hequal)))
        · rintro (hnone | hmoved | hlarge | hbelow | hequal)
          · omega
          · omega
          · exact .inl (by exact_mod_cast hlarge)
          · exact .inr (.inl (by exact_mod_cast hbelow))
          · exact .inr (.inr hequal)
      · refine iff_of_true ?_ (.inr (.inl (by omega)))
        exact insert_moved_own hopened hget hpos (by rwa [hsize])

/-- One vector with the buffer `cells`, the first `size` of which are elements. -/
def single (cells : List (Option ℕ)) (size : ℕ) : Store Unit ℕ :=
  ⟨ArrayHeap.empty.alloc cells, fun _ => ⟨some 0, size, cells.length⟩, fun _ => false⟩

/-- `v.insert(v.begin(), 1, v[0])` with room for one more element. -/
theorem own_element_iff_insert :
    (Taking.insert 0 1).Agrees (single [some 5, some 6, none] 2) () (.slot (some 0) (0 : ℕ))
      (.temp 5) := by
  have hholds : Holds (single [some 5, some 6, none] 2).heap
      ((single [some 5, some 6, none] 2).vectors ()) [5, 6] :=
    ⟨rfl, by decide, by decide, [some 5, some 6, none], rfl, rfl, ⟨[none], rfl⟩⟩
  exact (own_element_iff hholds rfl (.insert 0 1) ⟨by decide, by decide⟩).mpr
    (.inr (.inr (.inr (.inl (by decide)))))

/-- `v.push_back(5); v.push_back(v[0]);` reads the buffer that the second call has
released. -/
theorem own_element_released :
    ∃ s : Store Unit ℕ, Returns (pushBack () (.temp 5))
        ⟨.empty, fun _ => ⟨none, 0, 0⟩, fun _ => false⟩ () s ∧
      Stuck (pushBack () (.slot (s.vectors ()).mData 0)) s ∧
      ¬ Taking.pushBack.Agrees s () (.slot (s.vectors ()).mData 0) (.temp 5) := by
  refine ⟨_, rfl, rfl, fun hsame => ?_⟩
  have houtcome : (none : Option (Except Failure Unit × Store Unit ℕ)) = some _ := hsame
  cases houtcome

end MyVector

end CppProjects
