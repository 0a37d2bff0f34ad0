import CppProjects.Vector.MyVectorRuns

/-!
# `myVector` when an allocation fails

`push_back`, `assign`, `resize`, `reserve` and `insert` set the capacity before
they ask for the array it stands for.  What is left of the vector when `new T[n]`
throws is compared with what it was.
-/

namespace CppProjects

open CInt Program

namespace MyVector

variable {ι α : Type} {s s' : Store ι α} {v : ι} {error : Failure}

/-! ## What throws -/

theorem neverThrows_self (v : ι) : NeverThrows (self v : M ι α MyVector) :=
  neverThrows_get.bind fun _ => neverThrows_pure _

theorem neverThrows_load (data : Option ℕ) (i : ℤ) : NeverThrows (load data i : M ι α _) :=
  neverThrows_get.bind fun _ => neverThrows_defined _

theorem neverThrows_store (data : Option ℕ) (i : ℤ) (value : Option α) :
    NeverThrows (store data i value : M ι α Unit) :=
  neverThrows_get.bind fun _ => (neverThrows_defined _).bind fun _ => neverThrows_set _

theorem neverThrows_arg (arg : Arg α) : NeverThrows (arg.get : M ι α _) := by
  cases arg with
  | temp value => exact neverThrows_pure _
  | slot block index => exact neverThrows_load block index

theorem neverThrows_distance (left right : Iterator) :
    NeverThrows (distance left right : M ι α ℤ) :=
  .ite (neverThrows_pure _) neverThrows_undefined

theorem neverThrows_deleteArray (addr : ℕ) : NeverThrows (deleteArray addr : M ι α Unit) :=
  neverThrows_get.bind fun _ => .ite (neverThrows_set _) neverThrows_undefined

/-- The loops of the operations copy slots or assign the argument. -/
theorem neverThrows_copy (source data : Option ℕ) (start : ℤ) (count : ℕ) :
    NeverThrows (forUp (fun i => do store data i (← load source i)) start count : M ι α Unit) :=
  neverThrows_forUp (fun _ => (neverThrows_load _ _).bind fun _ => neverThrows_store _ _ _) _ _

theorem neverThrows_fill (arg : Arg α) (data : Option ℕ) (start : ℤ) (count : ℕ) :
    NeverThrows (forUp (fun i => do store data i (← arg.get)) start count : M ι α Unit) :=
  neverThrows_forUp (fun _ => (neverThrows_arg arg).bind fun _ => neverThrows_store _ _ _) _ _

theorem neverThrows_copy_shifted (source data : Option ℕ) (n start : ℤ) (count : ℕ) :
    NeverThrows (forUp (fun i => do
      let target ← intExpr (i + n)
      store data target (← load source i)) start count : M ι α Unit) :=
  neverThrows_forUp (fun _ => (neverThrows_intExpr _).bind fun _ =>
    (neverThrows_load _ _).bind fun _ => neverThrows_store _ _ _) _ _

theorem neverThrows_fill_shifted (arg : Arg α) (data : Option ℕ) (n start : ℤ) (count : ℕ) :
    NeverThrows (forUp (fun i => do
      let target ← intExpr (i + n)
      store data target (← arg.get)) start count : M ι α Unit) :=
  neverThrows_forUp (fun _ => (neverThrows_intExpr _).bind fun _ =>
    (neverThrows_arg arg).bind fun _ => neverThrows_store _ _ _) _ _

/-- `new T[n]` throws when it is refused, and does nothing else then. -/
theorem thrown_newArray {n : ℕ} (hthrows : Throws (newArray n) s error s') : s' = s := by
  obtain ⟨t, s₁, hget, hrest⟩ := hthrows.of_bind neverThrows_get
  obtain ⟨rfl, rfl⟩ := hget.get_inv
  split_ifs at hrest with hrefuses
  · exact hrest.throw_inv.2
  · exact absurd hrest (((neverThrows_set _).bind fun _ => neverThrows_pure _) _ _ _)

variable [DecidableEq ι]

theorem neverThrows_update (v : ι) (f : MyVector → MyVector) :
    NeverThrows (update v f : M ι α Unit) := neverThrows_modify _

theorem neverThrows_release (v : ι) : NeverThrows (release v : M ι α Unit) := by
  refine (neverThrows_self v).bind fun this => ?_
  cases this.mData with
  | none => exact neverThrows_pure ()
  | some addr => exact (neverThrows_deleteArray addr).bind fun _ => neverThrows_update v _

theorem neverThrows_discard (v : ι) : NeverThrows (discard v : M ι α Unit) := by
  refine (neverThrows_self v).bind fun this => ?_
  cases this.mData with
  | none => exact neverThrows_pure ()
  | some addr => exact (neverThrows_release v).bind fun _ => neverThrows_update v _

theorem neverThrows_growCapacity (v : ι) (needed : ℕ) :
    NeverThrows (growCapacity v needed : M ι α Unit) :=
  (neverThrows_self v).bind fun _ => (neverThrows_defined _).bind fun _ => neverThrows_update v _

/-! ## A capacity without its array -/

/-- The vector with another capacity and the same array. -/
def withCapacity (this : MyVector) (capacity : ℕ) : MyVector := { this with mCapacity := capacity }

omit [DecidableEq ι] in
/-- Only the old capacity goes with the old array. -/
theorem Represents.withCapacity_iff {heap : ArrayHeap (Option α)} {this : MyVector} {xs : List α}
    (hvector : Represents heap this xs) {capacity : ℕ} :
    Represents heap (this.withCapacity capacity) xs ↔ capacity = this.mCapacity := by
  constructor
  · rintro ⟨-, cells, hcells, hlength, -⟩
    obtain ⟨-, old, hold, hlength', -⟩ := hvector
    obtain rfl : old = cells := Option.some.inj (hold.symm.trans hcells)
    exact hlength.symm.trans hlength'
  · rintro rfl
    exact hvector

theorem growTo_spec {needed fuel capacity grown : ℕ}
    (hgrown : growTo needed fuel capacity = some grown) :
    needed ≤ grown ∧ (needed ≤ capacity → grown = capacity) := by
  induction fuel generalizing capacity with
  | zero => cases hgrown
  | succ fuel ih =>
      rw [growTo] at hgrown
      split_ifs at hgrown with hlt
      · exact ⟨(ih hgrown).1, fun hle => absurd hle (by omega)⟩
      · obtain rfl := Option.some.inj hgrown
        exact ⟨by omega, fun _ => rfl⟩

theorem growTo_eq_self_iff {needed fuel capacity grown : ℕ} (hle : capacity ≤ needed)
    (hgrown : growTo needed fuel capacity = some grown) :
    grown = capacity ↔ needed = capacity := by
  obtain ⟨hneeded, hsame⟩ := growTo_spec hgrown
  exact ⟨by omega, fun heq => hsame heq.le⟩

theorem doubled_ne (capacity : ℕ) : doubled capacity ≠ capacity := by
  rw [doubled, toSize]
  split_ifs <;> omega

/-- A call that grows the capacity and is refused the array. -/
theorem thrown_grown {β : Type} {needed : ℕ} {next : ℕ → M ι α β}
    (hnext : ∀ data, NeverThrows (next data))
    (hthrows : Throws (do
      growCapacity v needed
      let data ← newArray (← self v).mCapacity
      next data) s error s') :
    ∃ grown, growTo needed (2 ^ 64 + 1) (s.vectors v).mCapacity = some grown ∧
      s' = s.withVector v ((s.vectors v).withCapacity grown) := by
  obtain ⟨_, s₁, hgrow, hthrows₁⟩ := hthrows.of_bind (neverThrows_growCapacity v needed)
  obtain ⟨this, s₂, hself, hthrows₂⟩ := hthrows₁.of_bind (neverThrows_self v)
  obtain ⟨-, rfl⟩ := hself.unique (returns_self rfl)
  obtain rfl := thrown_newArray (hthrows₂.first hnext)
  obtain ⟨this, s₃, hself', hgrow₁⟩ := hgrow.bind_inv
  obtain ⟨rfl, rfl⟩ := hself'.unique (returns_self rfl)
  obtain ⟨grown, s₄, hdefined, hupdate⟩ := hgrow₁.bind_inv
  obtain ⟨hgrown, rfl⟩ := hdefined.defined_inv
  obtain ⟨-, rfl⟩ := hupdate.unique (returns_update rfl _)
  exact ⟨grown, hgrown, rfl⟩

/-! ## Where the operations throw -/

theorem thrown_pushBack {value : Arg α} (hthrows : Throws (pushBack v value) s error s') :
    s' = s.withVector v ((s.vectors v).withCapacity (doubled (s.vectors v).mCapacity)) := by
  obtain ⟨this, s₁, hself, hthrows₁⟩ := hthrows.of_bind (neverThrows_self v)
  obtain ⟨rfl, rfl⟩ := hself.unique (returns_self rfl)
  split_ifs at hthrows₁
  · exact absurd hthrows₁ (((neverThrows_arg value).bind fun _ =>
      (neverThrows_store _ _ _).bind fun _ => neverThrows_update v _) _ _ _)
  · obtain ⟨_, s₂, hupdate, hthrows₂⟩ := hthrows₁.of_bind (neverThrows_update v _)
    obtain ⟨-, rfl⟩ := hupdate.unique (returns_update rfl _)
    refine thrown_newArray (hthrows₂.first fun data => ?_)
    exact (neverThrows_copy _ _ _ _).bind fun _ => (neverThrows_release v).bind fun _ =>
      (neverThrows_update v _).bind fun _ => (neverThrows_arg value).bind fun _ =>
        (neverThrows_store _ _ _).bind fun _ => neverThrows_update v _

theorem thrown_reserve {n : ℤ} (hthrows : Throws (reserve v n) s error s') :
    (s.vectors v).mCapacity ≤ toSize n ∧
      ∃ grown, growTo (toSize n) (2 ^ 64 + 1) (s.vectors v).mCapacity = some grown ∧
        s' = s.withVector v ((s.vectors v).withCapacity grown) := by
  obtain ⟨this, s₁, hself, hthrows₁⟩ := hthrows.of_bind (neverThrows_self v)
  obtain ⟨rfl, rfl⟩ := hself.unique (returns_self rfl)
  split_ifs at hthrows₁ with hroom
  · exact absurd hthrows₁ (neverThrows_pure _ _ _ _)
  · refine ⟨not_lt.mp hroom, thrown_grown (fun data => ?_) hthrows₁⟩
    exact (neverThrows_copy _ _ _ _).bind fun _ => (neverThrows_release v).bind fun _ =>
      neverThrows_update v _

theorem thrown_resize {n : ℤ} {val : Arg α} (hthrows : Throws (resize v n val) s error s') :
    (s.vectors v).mCapacity ≤ toSize n ∧
      ∃ grown, growTo (toSize n) (2 ^ 64 + 1) (s.vectors v).mCapacity = some grown ∧
        s' = s.withVector v ((s.vectors v).withCapacity grown) := by
  obtain ⟨this, s₁, hself, hthrows₁⟩ := hthrows.of_bind (neverThrows_self v)
  obtain ⟨rfl, rfl⟩ := hself.unique (returns_self rfl)
  split_ifs at hthrows₁ with hcut hroom
  · exact absurd hthrows₁ (neverThrows_update v _ _ _ _)
  · exact absurd hthrows₁ (((neverThrows_fill val _ _ _).bind fun _ =>
      neverThrows_update v _) _ _ _)
  · refine ⟨not_lt.mp hroom, thrown_grown (fun data => ?_) hthrows₁⟩
    exact (neverThrows_copy _ _ _ _).bind fun _ => (neverThrows_fill val _ _ _).bind fun _ =>
      (neverThrows_release v).bind fun _ => (neverThrows_update v _).bind fun _ =>
        neverThrows_update v _

theorem thrown_insert {pos : Iterator} {n : ℤ} {value : Arg α}
    (hthrows : Throws (insert v pos n value) s error s') :
    (s.vectors v).mCapacity < toSize ((s.vectors v).mSize + n) ∧
      ∃ grown, growTo (toSize ((s.vectors v).mSize + n)) (2 ^ 64 + 1)
          (s.vectors v).mCapacity = some grown ∧
        s' = s.withVector v ((s.vectors v).withCapacity grown) := by
  obtain ⟨this, s₁, hself, hthrows₁⟩ := hthrows.of_bind (neverThrows_self v)
  obtain ⟨rfl, rfl⟩ := hself.unique (returns_self rfl)
  obtain ⟨size, s₂, hdistance, hthrows₂⟩ := hthrows₁.of_bind (neverThrows_distance _ _)
  have hsame : s₂ = s₁ := by
    rw [distance] at hdistance
    split_ifs at hdistance
    · exact hdistance.pure_inv.2
    · cases hdistance
  rw [hsame] at hthrows₂
  split_ifs at hthrows₂ with hroom
  · refine absurd hthrows₂ (NeverThrows.bind ?_ (fun _ => (neverThrows_fill_shifted value _ _ _ _).bind
      fun _ => (neverThrows_update v _).bind fun _ => neverThrows_pure _) _ _ _)
    exact neverThrows_forDown (fun _ => (neverThrows_intExpr _).bind fun _ =>
      (neverThrows_load _ _).bind fun _ => neverThrows_store _ _ _) _ _
  · refine ⟨not_le.mp hroom, thrown_grown (fun data => ?_) hthrows₂⟩
    exact (neverThrows_copy _ _ _ _).bind fun _ => (neverThrows_fill_shifted value _ _ _ _).bind
      fun _ => (neverThrows_copy_shifted _ _ _ _ _).bind fun _ => (neverThrows_release v).bind
        fun _ => (neverThrows_update v _).bind fun _ => (neverThrows_update v _).bind
          fun _ => neverThrows_pure _

/-- `assign` has released the buffer by then. -/
theorem thrown_assign {n : ℤ} {val : Arg α} (hthrows : Throws (assign v n val) s error s') :
    (s.vectors v).mCapacity < toSize n ∧
      ∃ t grown, Returns (discard v) s () t ∧
        growTo (toSize n) (2 ^ 64 + 1) (t.vectors v).mCapacity = some grown ∧
        s' = t.withVector v ((t.vectors v).withCapacity grown) := by
  obtain ⟨this, s₁, hself, hthrows₁⟩ := hthrows.of_bind (neverThrows_self v)
  obtain ⟨rfl, rfl⟩ := hself.unique (returns_self rfl)
  split_ifs at hthrows₁ with hroom
  · exact absurd hthrows₁ (((neverThrows_fill val _ _ _).bind fun _ =>
      neverThrows_update v _) _ _ _)
  · obtain ⟨_, t, hdiscard, hthrows₂⟩ := hthrows₁.of_bind (neverThrows_discard v)
    refine ⟨not_le.mp hroom, t, ?_⟩
    obtain ⟨grown, hgrown, hs'⟩ := thrown_grown (fun data =>
      (neverThrows_update v _).bind fun _ => (neverThrows_fill val _ _ _).bind fun _ =>
        neverThrows_update v _) hthrows₂
    exact ⟨grown, hdiscard, hgrown, hs'⟩

/-! ## What is left of the vector -/

/-- The operations that may ask for a new array. -/
inductive Growing (α : Type)
  | pushBack (value : Arg α)
  | assign (n : ℤ) (val : Arg α)
  | resize (n : ℤ) (val : Arg α)
  | reserve (n : ℤ)
  | insert (pos : Iterator) (n : ℤ) (value : Arg α)

def Growing.call (v : ι) : Growing α → M ι α Unit
  | .pushBack value => MyVector.pushBack v value
  | .assign n val => MyVector.assign v n val
  | .resize n val => MyVector.resize v n val
  | .reserve n => MyVector.reserve v n
  | .insert pos n value => do
      let _ ← MyVector.insert v pos n value

/-- The calls that ask for an array as large as the one there is. -/
def Growing.SameCapacity (this : MyVector) : Growing α → Prop
  | .resize n _ | .reserve n => toSize n = this.mCapacity
  | .pushBack _ | .assign _ _ | .insert _ _ _ => False

variable {xs : List α}

/-- The vector once its capacity is `capacity`, in a store that is as it was. -/
theorem represents_thrown_iff (hvector : Represents s.heap (s.vectors v) xs) {capacity : ℕ}
    (hs' : s' = s.withVector v ((s.vectors v).withCapacity capacity)) :
    Represents s'.heap (s'.vectors v) xs ↔ capacity = (s.vectors v).mCapacity := by
  rw [hs', Store.vectors_withVector]
  exact hvector.withCapacity_iff

/-- Without its buffer a vector has no room for what it was to hold. -/
theorem not_represents_assign (hvector : Represents s.heap (s.vectors v) xs) {n : ℤ}
    {val : Arg α} (hthrows : Throws (assign v n val) s error s') :
    ¬ Represents s'.heap (s'.vectors v) xs := by
  obtain ⟨hroom, t, grown, hdiscard, hgrown, rfl⟩ := thrown_assign hthrows
  have hneeded := (growTo_spec hgrown).1
  have hempty : (t.vectors v).mData = none ∧ t.heap.cellsAt none = some [] := by
    refine ⟨?_, rfl⟩
    obtain ⟨-, cells, hcells, -⟩ := hvector
    cases hdata : (s.vectors v).mData with
    | none =>
        have hsame : Returns (discard v) s () s := by
          refine (returns_self rfl).bind ?_
          rw [hdata]
          exact returns_pure () s
        rw [← (hsame.unique hdiscard).2, hdata]
    | some addr =>
        rw [hdata] at hcells
        rw [(hdiscard.unique (returns_discard_some rfl hdata hcells)).2, Store.vectors_withVector]
  rintro ⟨-, cells, hcells, hlength, -⟩
  rw [Store.vectors_withVector] at hcells hlength
  have hnil : t.heap.cellsAt (t.vectors v).mData = some cells := hcells
  rw [hempty.1, hempty.2] at hnil
  obtain rfl := Option.some.inj hnil
  have hgrownZero : 0 = grown := hlength
  omega

/-- After a refused allocation the vector is intact exactly if the call was a
`resize` or `reserve` to the capacity it had. -/
theorem intact_after_badAlloc_iff (hvector : Represents s.heap (s.vectors v) xs)
    (op : Growing α) (hthrows : Throws (op.call v) s .badAlloc s') :
    Represents s'.heap (s'.vectors v) xs ↔ op.SameCapacity (s.vectors v) := by
  cases op with
  | pushBack value =>
      rw [represents_thrown_iff hvector (thrown_pushBack hthrows)]
      exact iff_of_false (doubled_ne _) id
  | assign n val => exact iff_of_false (not_represents_assign hvector hthrows) id
  | resize n val =>
      obtain ⟨hle, grown, hgrown, hs'⟩ := thrown_resize hthrows
      rw [represents_thrown_iff hvector hs']
      exact growTo_eq_self_iff hle hgrown
  | reserve n =>
      obtain ⟨hle, grown, hgrown, hs'⟩ := thrown_reserve hthrows
      rw [represents_thrown_iff hvector hs']
      exact growTo_eq_self_iff hle hgrown
  | insert pos n value =>
      obtain ⟨hlt, grown, hgrown, hs'⟩ := thrown_insert (hthrows.first fun _ => neverThrows_pure _)
      rw [represents_thrown_iff hvector hs', growTo_eq_self_iff hlt.le hgrown]
      exact iff_of_false hlt.ne' id

/-- A full vector of one element, in a memory that has no room for another array. -/
def full : Store Unit ℕ :=
  ⟨ArrayHeap.empty.alloc [some 7], fun _ => ⟨some 0, 1, 1⟩, fun _ => true⟩

/-- `v.reserve(1)` of the full vector. -/
theorem intact_after_badAlloc_iff_reserve :
    ∃ s' : Store Unit ℕ, Throws (reserve () 1) full .badAlloc s' ∧
      Represents s'.heap (s'.vectors ()) [7] := by
  have hthrows : Throws (reserve () 1) full .badAlloc full := by
    have hgrow : Returns (growCapacity () (toSize 1)) full () full :=
      (returns_self rfl).bind ((returns_defined rfl full).bind (returns_update rfl _))
    refine (returns_self rfl).bind_throws ?_
    rw [if_neg (by decide)]
    exact hgrow.bind_throws ((returns_self rfl).bind_throws (Throws.bind rfl))
  have hvector : Represents full.heap (full.vectors ()) [7] := ⟨le_rfl, [some 7], rfl, rfl, rfl⟩
  exact ⟨full, hthrows, (intact_after_badAlloc_iff hvector (.reserve 1) hthrows).mpr (show toSize 1 = 1 by decide)⟩

/-- `v.push_back(8)` of the full vector is refused its array.  The next `push_back`
writes behind the one there is. -/
theorem not_intact_after_badAlloc :
    (∃ s' : Store Unit ℕ, Throws (pushBack () (.temp 8)) full .badAlloc s' ∧
      Stuck (pushBack () (.temp 9)) s') ∧
    ¬ ∀ (s s' : Store Unit ℕ) (xs : List ℕ) (op : Growing ℕ),
      Represents s.heap (s.vectors ()) xs → Throws (op.call ()) s .badAlloc s' →
      Represents s'.heap (s'.vectors ()) xs := by
  have hthrows : Throws (pushBack () (.temp 8)) full .badAlloc
      (full.withVector () ⟨some 0, 1, 2⟩) := rfl
  refine ⟨⟨_, hthrows, rfl⟩, fun hall => ?_⟩
  have hvector : Represents full.heap (full.vectors ()) [7] := ⟨le_rfl, [some 7], rfl, rfl, rfl⟩
  have hintact := hall _ _ _ (.pushBack (.temp 8)) hvector hthrows
  rw [represents_thrown_iff hvector (thrown_pushBack hthrows)] at hintact
  exact doubled_ne _ hintact

end MyVector

end CppProjects
