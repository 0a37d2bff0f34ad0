import CppProjects.Vector.CppVectorSteps

/-!
# `vector` when an allocation fails

What is left of the vector when `allocate` throws, in each of the operations that may
come to it, and what its destructor does then.
-/

namespace CppProjects

open CInt Program

namespace CppVector

variable {ι α : Type} {s s' : Store ι α} {v w : ι} {error : Failure} {data : Option ℕ} {n : ℕ}

/-! ## What throws -/

theorem neverThrows_self (v : ι) : NeverThrows (self v : M ι α CppVector) :=
  neverThrows_get.bind fun _ => neverThrows_pure _

theorem neverThrows_readSlot (data : Option ℕ) (i : ℕ) : NeverThrows (readSlot data i : M ι α _) :=
  neverThrows_get.bind fun _ => neverThrows_defined _

theorem neverThrows_writeSlot (data : Option ℕ) (i : ℕ) (slot : Slot α) :
    NeverThrows (writeSlot data i slot : M ι α Unit) :=
  neverThrows_get.bind fun _ => (neverThrows_defined _).bind fun _ => neverThrows_set _

theorem neverThrows_valueAt (data : Option ℕ) (i : ℕ) : NeverThrows (valueAt data i : M ι α α) := by
  refine (neverThrows_readSlot data i).bind fun slot => ?_
  cases slot with
  | raw | moved => exact neverThrows_undefined
  | full value => exact neverThrows_pure value

theorem neverThrows_moveFrom (data : Option ℕ) (i : ℕ) : NeverThrows (moveFrom data i : M ι α α) :=
  (neverThrows_valueAt data i).bind fun _ =>
    (neverThrows_writeSlot data i _).bind fun _ => neverThrows_pure _

theorem neverThrows_construct (data : Option ℕ) (i : ℕ) (value : α) :
    NeverThrows (construct data i value : M ι α Unit) :=
  (neverThrows_readSlot data i).bind fun _ =>
    (neverThrows_writeSlot data i _).bind fun _ => neverThrows_modify _

theorem neverThrows_assignSlot (data : Option ℕ) (i : ℕ) (value : α) :
    NeverThrows (assignSlot data i value : M ι α Unit) := by
  refine (neverThrows_readSlot data i).bind fun slot => ?_
  cases slot with
  | raw => exact neverThrows_undefined
  | moved | full => exact neverThrows_writeSlot data i _

theorem neverThrows_destroyAt (data : Option ℕ) (i : ℕ) :
    NeverThrows (destroyAt data i : M ι α Unit) := by
  refine (neverThrows_readSlot data i).bind fun slot => ?_
  cases slot with
  | raw => exact neverThrows_undefined
  | moved | full => exact neverThrows_writeSlot data i _

theorem neverThrows_arg (arg : Arg α) : NeverThrows (arg.get : M ι α α) := by
  cases arg with
  | temp value => exact neverThrows_pure value
  | slot block index => exact neverThrows_valueAt block index

theorem neverThrows_deallocate (p : Option ℕ) (n : ℕ) :
    NeverThrows (deallocate p n : M ι α Unit) := by
  cases p with
  | none => exact neverThrows_pure ()
  | some addr =>
      exact neverThrows_get.bind fun _ => (neverThrows_defined _).bind fun _ =>
        .ite (neverThrows_set _) neverThrows_undefined

theorem neverThrows_destroy_each (data : Option ℕ) (start count : ℕ) :
    NeverThrows (forEach (destroyAt data) start count : M ι α Unit) :=
  neverThrows_forEach (neverThrows_destroyAt data) start count

theorem neverThrows_relocate (this : CppVector) (newData : ℕ) :
    NeverThrows (relocate this newData : M ι α Unit) := by
  rw [relocate]
  cases this.data with
  | none => exact neverThrows_pure ()
  | some addr =>
      refine NeverThrows.bind (neverThrows_forEach (fun k => ?_) _ _) fun _ =>
        (neverThrows_destroy_each _ _ _).bind fun _ => neverThrows_deallocate _ _
      exact (neverThrows_moveFrom _ k).bind fun _ => neverThrows_construct _ k _

theorem neverThrows_assertWithin (this : CppVector) (pos : Iterator) :
    NeverThrows (assertWithin this pos : M ι α Unit) :=
  .ite (neverThrows_pure ()) neverThrows_undefined

theorem neverThrows_openGap (this : CppVector) (pos : ℕ) :
    NeverThrows (openGap this pos : M ι α Unit) := by
  refine (neverThrows_moveFrom _ _).bind fun _ => (neverThrows_construct _ _ _).bind fun _ =>
    NeverThrows.bind (neverThrows_forEachDown (fun k => ?_) _ _) fun _ => neverThrows_destroyAt _ _
  exact (neverThrows_moveFrom _ k).bind fun _ => neverThrows_assignSlot _ _ _

theorem neverThrows_copyElements (data : Option ℕ) (other : CppVector) :
    NeverThrows (copyElements data other : M ι α Unit) :=
  neverThrows_forEach (fun k => (neverThrows_valueAt _ k).bind fun _ => neverThrows_construct _ k _) _ _

theorem neverThrows_fillUp (v : ι) (newSize : ℕ) (value : Arg α) :
    NeverThrows (fillUp v newSize value : M ι α Unit) :=
  (neverThrows_self v).bind fun _ => neverThrows_forEach (fun k =>
    (neverThrows_arg value).bind fun _ => neverThrows_construct _ k _) _ _

/-- A refused allocation does nothing. -/
theorem thrown_allocate (hthrows : Throws (allocate n) s error s') : s' = s := by
  by_cases hgrants : s.Grants n
  · exact absurd (returns_allocate hgrants) hthrows.not_returns
  · obtain ⟨error', hrefused⟩ := throws_allocate hgrants
    exact (hthrows.unique hrefused).2

variable [DecidableEq ι]

theorem neverThrows_update (v : ι) (f : CppVector → CppVector) :
    NeverThrows (update v f : M ι α Unit) := neverThrows_modify _

theorem neverThrows_clear (v : ι) : NeverThrows (clear v : M ι α Unit) := by
  refine (neverThrows_self v).bind fun this => ?_
  cases this.data with
  | none => exact neverThrows_pure ()
  | some addr => exact (neverThrows_destroy_each _ _ _).bind fun _ => neverThrows_update v _

theorem neverThrows_release (v : ι) : NeverThrows (release v : M ι α Unit) :=
  (neverThrows_clear v).bind fun _ => (neverThrows_self v).bind fun _ => neverThrows_deallocate _ _

theorem neverThrows_takeAllocator (v : ι) (alloc : ℕ) :
    NeverThrows (takeAllocator v alloc : M ι α Unit) :=
  (neverThrows_self v).bind fun _ =>
    .ite ((neverThrows_release v).bind fun _ => neverThrows_update v _) (neverThrows_pure ())

theorem neverThrows_copyAllocator (v : ι) (alloc : ℕ) :
    NeverThrows (copyAllocator v alloc : M ι α Unit) :=
  neverThrows_get.bind fun _ => .ite (neverThrows_takeAllocator v alloc) (neverThrows_pure ())

theorem neverThrows_appendElement (v : ι) (arg : Arg α) :
    NeverThrows (appendElement v arg : M ι α Iterator) :=
  (neverThrows_self v).bind fun _ => (neverThrows_arg arg).bind fun _ =>
    (neverThrows_construct _ _ _).bind fun _ => (neverThrows_update v _).bind fun _ =>
      neverThrows_pure _

theorem neverThrows_insertElement (v : ι) (pos : ℕ) (arg : Arg α) :
    NeverThrows (insertElement v pos arg : M ι α Iterator) :=
  (neverThrows_self v).bind fun _ => (neverThrows_openGap _ pos).bind fun _ =>
    (neverThrows_arg arg).bind fun _ => (neverThrows_construct _ _ _).bind fun _ =>
      (neverThrows_update v _).bind fun _ => neverThrows_pure _

/-! ## Where the operations throw -/

/-- The old elements are moved only when the new buffer is there. -/
theorem thrown_reallocate (hthrows : Throws (reallocate v n) s error s') : s' = s :=
  thrown_allocate (hthrows.first fun newData => (neverThrows_self v).bind fun this =>
    (neverThrows_relocate this newData).bind fun _ => neverThrows_update v _)

theorem thrown_if_reallocate {c : CppVector → Prop} [DecidablePred c] {size : CppVector → ℕ}
    (hthrows : Throws (do
      let this ← self v
      if c this then reallocate v (size this) else pure ()) s error s') : s' = s := by
  obtain ⟨this, s₁, hself, hrest⟩ := hthrows.of_bind (neverThrows_self v)
  obtain ⟨-, rfl⟩ := hself.unique (returns_self rfl)
  split_ifs at hrest
  · exact thrown_reallocate hrest
  · exact absurd hrest (neverThrows_pure () _ _ _)

theorem thrown_growIfFull (hthrows : Throws (growIfFull v) s error s') : s' = s :=
  thrown_if_reallocate hthrows

theorem thrown_reserve (hthrows : Throws (reserve v n) s error s') : s' = s :=
  thrown_if_reallocate hthrows

theorem thrown_shrinkToFit (hthrows : Throws (shrinkToFit v) s error s') : s' = s :=
  thrown_if_reallocate hthrows

theorem thrown_emplaceBack {arg : Arg α} (hthrows : Throws (emplaceBack v arg) s error s') : s' = s :=
  thrown_growIfFull (hthrows.first fun _ => neverThrows_appendElement v arg)

theorem thrown_emplace {pos : Iterator} {arg : Arg α}
    (hthrows : Throws (emplace v pos arg) s error s') : s' = s := by
  obtain ⟨this, s₁, hself, hthrows₁⟩ := hthrows.of_bind (neverThrows_self v)
  obtain ⟨-, rfl⟩ := hself.unique (returns_self rfl)
  obtain ⟨_, s₂, hwithin, hthrows₂⟩ := hthrows₁.of_bind (neverThrows_assertWithin this pos)
  have hsame : s₂ = s₁ := by
    rw [assertWithin] at hwithin
    split_ifs at hwithin
    · exact hwithin.pure_inv.2
    · cases hwithin
  rw [hsame] at hthrows₂
  split_ifs at hthrows₂
  · exact thrown_emplaceBack hthrows₂
  · exact thrown_growIfFull (hthrows₂.first fun _ => neverThrows_insertElement v _ arg)

theorem thrown_resize {value : Arg α} (hthrows : Throws (resize v n value) s error s') : s' = s := by
  obtain ⟨this, s₁, hself, hthrows₁⟩ := hthrows.of_bind (neverThrows_self v)
  obtain ⟨-, rfl⟩ := hself.unique (returns_self rfl)
  split_ifs at hthrows₁
  · exact thrown_reserve (hthrows₁.first fun _ =>
      (neverThrows_fillUp v n value).bind fun _ => neverThrows_update v _)
  · exact absurd hthrows₁ (((neverThrows_destroy_each _ _ _).bind fun _ =>
      neverThrows_update v _) _ _ _)
  · exact absurd hthrows₁ (neverThrows_update v _ _ _ _)

/-- Copy assignment has found its buffer too small, and released it, by then. -/
theorem thrown_copyAssign (hthrows : Throws (copyAssign v w) s error s') :
    ∃ s₁, Returns (copyAllocator v (s.vectors w).alloc) s () s₁ ∧ Returns (release v) s₁ () s' ∧
      (s₁.vectors v).capacity < (s.vectors w).size ∧ ¬ s'.Grants (s.vectors w).size := by
  rw [copyAssign] at hthrows
  split_ifs at hthrows
  · exact absurd hthrows (neverThrows_pure () _ _ _)
  obtain ⟨other, s₁, hself, hthrows₁⟩ := hthrows.of_bind (neverThrows_self w)
  obtain ⟨rfl, rfl⟩ := hself.unique (returns_self rfl)
  obtain ⟨_, s₂, htake, hthrows₂⟩ := hthrows₁.of_bind (neverThrows_copyAllocator v _)
  refine ⟨s₂, htake, ?_⟩
  have hroom := hthrows₂.first fun _ => (neverThrows_update v _).bind fun _ =>
    (neverThrows_self v).bind fun _ => neverThrows_copyElements _ _
  obtain ⟨this, s₃, hself, hroom₁⟩ := hroom.of_bind (neverThrows_self v)
  obtain ⟨rfl, rfl⟩ := hself.unique (returns_self rfl)
  split_ifs at hroom₁ with hmore
  · obtain ⟨_, s₄, hrelease, hallocate⟩ := hroom₁.of_bind (neverThrows_release v)
    have hrefused := hallocate.first fun _ => neverThrows_update v _
    obtain rfl := thrown_allocate hrefused
    exact ⟨hrelease, hmore, fun hgrants => hrefused.not_returns (returns_allocate hgrants)⟩
  · exact absurd hroom₁ (neverThrows_pure () _ _ _)

/-! ## What is left of the vector -/

/-- The operations that may ask for a new buffer. -/
inductive Allocating (ι α : Type)
  | reserve (n : ℕ)
  | shrinkToFit
  | pushBack (value : Arg α)
  | emplaceBack (arg : Arg α)
  | emplace (pos : Iterator) (arg : Arg α)
  | insert (pos : Iterator) (value : Arg α)
  | resize (n : ℕ) (value : Arg α)
  | copyAssign (w : ι)

def Allocating.call (v : ι) : Allocating ι α → M ι α Unit
  | .reserve n => CppVector.reserve v n
  | .shrinkToFit => CppVector.shrinkToFit v
  | .pushBack value => CppVector.pushBack v value
  | .emplaceBack arg => do
      let _ ← CppVector.emplaceBack v arg
  | .emplace pos arg => do
      let _ ← CppVector.emplace v pos arg
  | .insert pos value => do
      let _ ← CppVector.insert v pos value
  | .resize n value => CppVector.resize v n value
  | .copyAssign w => CppVector.copyAssign v w

/-- The vector has the buffer, the size, the capacity and the contents it had, and its
destructor releases that buffer and no other. -/
structure Intact (s s' : Store ι α) (v : ι) : Prop where
  data : (s'.vectors v).data = (s.vectors v).data
  size : (s'.vectors v).size = (s.vectors v).size
  capacity : (s'.vectors v).capacity = (s.vectors v).capacity
  contents : s'.heap.cellsAt (s.vectors v).data = s.heap.cellsAt (s.vectors v).data
  released : ∃ t, Returns (destroy v) s' () t ∧ t.heap = s.heap.freeAt (s.vectors v).data

/-- The calls that release no buffer before they ask for a new one. -/
def Allocating.KeepsBuffer (this : CppVector) : Allocating ι α → Prop
  | .copyAssign _ => this.data = none
  | _ => True

variable {xs : List α} {cells : List (Slot α)}

theorem Opened.intact (hopened : Opened s v xs data cells) : Intact s s v where
  data := rfl
  size := rfl
  capacity := rfl
  contents := rfl
  released := by
    rw [hopened.vector]
    exact ⟨_, hopened.returns_release, rfl⟩

theorem thrown_call (op : Allocating ι α) (hother : ∀ w, op ≠ .copyAssign w)
    (hthrows : Throws (op.call v) s error s') : s' = s := by
  cases op with
  | reserve n => exact thrown_reserve hthrows
  | shrinkToFit => exact thrown_shrinkToFit hthrows
  | pushBack value => exact thrown_emplaceBack (hthrows.first fun _ => neverThrows_pure _)
  | emplaceBack arg => exact thrown_emplaceBack (hthrows.first fun _ => neverThrows_pure _)
  | emplace pos arg => exact thrown_emplace (hthrows.first fun _ => neverThrows_pure _)
  | insert pos value => exact thrown_emplace (hthrows.first fun _ => neverThrows_pure _)
  | resize n value => exact thrown_resize hthrows
  | copyAssign w => exact absurd rfl (hother w)

/-- The allocator is taken over, and the buffer released, or nothing is done. -/
theorem Opened.returned_copyAllocator (hopened : Opened s v xs data cells) {a : ℕ} {u : Unit}
    (htake : Returns (copyAllocator v a) s u s') :
    s' = s ∨ s' = (s.without data (s.lost + objects (cells.drop xs.length))).withVector v
      ⟨a, none, 0, 0⟩ := by
  obtain ⟨t, s₁, hget, hrest⟩ := htake.bind_inv
  obtain ⟨rfl, rfl⟩ := hget.get_inv
  split_ifs at hrest
  · by_cases hsame : (s₁.vectors v).alloc = a
    · rw [← hsame] at hrest
      exact .inl (hrest.unique returns_takeAllocator_self).2
    · exact .inr (hrest.unique (hopened.returns_takeAllocator hsame)).2
  · exact .inl hrest.pure_inv.2

/-- The buffer is gone, if there was one. -/
theorem Opened.thrown_copyAssign (hopened : Opened s v xs data cells)
    (hthrows : Throws (copyAssign v w) s error s') :
    s'.heap = s.heap.freeAt data ∧ (data = none → ∃ a, s'.vectors v = ⟨a, none, 0, 0⟩) := by
  obtain ⟨s₁, htake, hrelease, -⟩ := CppVector.thrown_copyAssign hthrows
  rcases hopened.returned_copyAllocator htake with rfl | rfl
  · rw [(hrelease.unique hopened.returns_release).2, Store.vectors_withVector]
    refine ⟨rfl, ?_⟩
    rintro rfl
    obtain rfl : [] = cells := Option.some.inj hopened.buffer
    exact ⟨_, rfl⟩
  · have hempty : Opened ((s.without data (s.lost + objects (cells.drop xs.length))).withVector v
        ⟨(s.vectors w).alloc, none, 0, 0⟩) v [] none [] := opened_none (Store.vectors_withVector _)
    rw [(hrelease.unique hempty.returns_release).2, Store.vectors_withVector]
    exact ⟨rfl, fun _ => ⟨_, Store.vectors_withVector _⟩⟩

theorem Opened.intact_copyAssign_iff (hopened : Opened s v xs data cells)
    (hthrows : Throws (copyAssign v w) s error s') : Intact s s' v ↔ data = none := by
  have hvector := hopened.vector
  obtain ⟨hheap, hnull⟩ := hopened.thrown_copyAssign hthrows
  constructor
  · intro hintact
    have hcontents := hintact.contents
    rw [hvector, hheap, hopened.buffer] at hcontents
    cases data with
    | none => rfl
    | some addr =>
        have hgone : (s.heap.freeAt (some addr)).cellsAt (some addr) = none :=
          ArrayHeap.freeAt_arrays_self
        cases hgone.symm.trans hcontents
  · rintro rfl
    obtain ⟨a, hthis⟩ := hnull rfl
    obtain rfl : [] = cells := Option.some.inj hopened.buffer
    obtain rfl := List.length_eq_zero_iff.mp (Nat.le_zero.mp hopened.fits)
    have hempty := opened_none hthis
    refine ⟨?_, ?_, ?_, ?_, _, hempty.returns_release, ?_⟩
    · rw [hthis, hvector]
    · rw [hthis, hvector, List.length_nil]
    · rw [hthis, hvector]
      rfl
    · rw [hheap, hvector]
      rfl
    · rw [hvector]
      exact hheap

/-- When a call is refused its allocation, the vector is intact exactly if the call was no
copy assignment, or one to a vector without a buffer. -/
theorem intact_when_refused_iff (hopened : Opened s v xs data cells) (op : Allocating ι α)
    (hthrows : Throws (op.call v) s error s') :
    Intact s s' v ↔ op.KeepsBuffer (s.vectors v) := by
  cases op with
  | copyAssign w =>
      rw [Allocating.KeepsBuffer, hopened.vector]
      exact hopened.intact_copyAssign_iff hthrows
  | _ =>
      rw [thrown_call _ (fun w heq => by cases heq) hthrows]
      exact iff_of_true hopened.intact trivial

/-- Two vectors of one buffer each, in a memory that has no room for another one. -/
def crowded : Store Bool ℕ where
  heap := (ArrayHeap.empty.alloc [.full 7]).alloc [.full 8, .full 9]
  vectors v := if v then ⟨0, some 1, 2, 2⟩ else ⟨0, some 0, 1, 1⟩
  traits := ⟨2 ^ 60, id, false, false, false⟩
  refuses _ := true
  lost := 0

theorem opened_crowded : Opened crowded false [7] (some 0) [.full 7] :=
  ⟨rfl, rfl, by decide, ⟨[], rfl⟩⟩

/-- `v.push_back(8)` of a full vector. -/
theorem intact_when_refused_pushBack :
    Throws (pushBack false (.temp 8)) crowded .badAlloc crowded ∧ Intact crowded crowded false := by
  have hthrows : Throws (pushBack false (.temp 8)) crowded .badAlloc crowded := rfl
  exact ⟨hthrows, (intact_when_refused_iff opened_crowded (.pushBack (.temp 8)) hthrows).mpr trivial⟩

/-- `v = w` for a longer `w`: the buffer of `v` is gone, and its destructor releases it
again. -/
theorem not_intact_copyAssign :
    (∃ s', Throws (copyAssign false true) crowded .badAlloc s' ∧ Stuck (destroy false) s') ∧
    ¬ ∀ (s s' : Store Bool ℕ) (xs : List ℕ) (data : Option ℕ) (cells : List (Slot ℕ))
      (op : Allocating Bool ℕ) (error : Failure), Opened s false xs data cells →
      Throws (op.call false) s error s' → Intact s s' false := by
  have hthrows : ∃ s', Throws (copyAssign false true) crowded .badAlloc s' ∧
      Stuck (destroy false) s' := ⟨_, rfl, rfl⟩
  refine ⟨hthrows, fun hall => ?_⟩
  obtain ⟨s', hthrown, -⟩ := hthrows
  have hintact := hall _ _ _ _ _ (.copyAssign true) _ opened_crowded hthrown
  cases (opened_crowded.intact_copyAssign_iff hthrown).mp hintact

end CppVector

end CppProjects
