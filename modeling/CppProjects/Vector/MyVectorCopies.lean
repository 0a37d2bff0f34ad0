import CppProjects.Vector.MyVectorRuns

/-!
# Copies of a `myVector`

The copy operations are the generated ones, which copy the pointer.  A copy and
its original are followed through any sequence of changes to both, up to their
destructors.
-/

namespace CppProjects

open CInt Program

namespace MyVector

variable {ι α : Type} [DecidableEq ι]

/-! ## Changes -/

/-- A change of one vector: an operation, or the assignment of an element. -/
inductive Change (ι α : Type)
  | operation (op : Op ι α)
  | setElement (v : ι) (index : ℕ) (value : Value ι α)
deriving DecidableEq, Repr

def Change.call : Change ι α → M ι α Unit
  | .operation op => op.call
  | .setElement v index value => do
      let arg ← value.pass
      MyVector.setElement v index arg

/-- The lists after a change, if it is a valid one. -/
def Change.apply (lists : ι → List α) : Change ι α → Option (ι → List α)
  | .operation op => op.apply lists
  | .setElement v index value => do
      let x ← value.denote lists v
      if index < (lists v).length then withList lists v ((lists v).set index x) else none

/-- `push_back`, `assign`, `insert`, `erase`, `resize` and the assignment of an
element, called on one of two vectors. -/
def Change.On (a b : ι) : Change ι α → Prop
  | .operation (.pushBack v _) | .operation (.assign v _ _) | .operation (.insert v _ _ _)
  | .operation (.erase v _) | .operation (.resize v _ _) | .setElement v _ _ => v = a ∨ v = b
  | .operation (.popBack _) | .operation (.reserve _ _) | .operation (.clear _)
  | .operation (.swap _ _) => False

/-- Changes one after the other. -/
def callAll : List (Change ι α) → M ι α Unit
  | [] => pure ()
  | change :: changes => do
      change.call
      callAll changes

def applyAll (lists : ι → List α) : List (Change ι α) → Option (ι → List α)
  | [] => some lists
  | change :: changes => do
      let lists ← change.apply lists
      applyAll lists changes

variable {s s' : Store ι α} {lists lists' : ι → List α} {a b v : ι} {x : α} {xs : List α}

theorem setElement_leads (hrefines : Refines s lists) {arg : Arg α}
    (harg : Arg.Denotes s.heap (s.vectors v).mData x arg) {index : ℕ}
    (hindex : index < (lists v).length) :
    ∃ s', Returns (setElement v index arg) s () s' ∧
      Leads s lists v ((lists v).set index x) s' := by
  obtain ⟨data, cells, hopened⟩ := hrefines.opened v
  rw [hopened.vector] at harg
  have hfits := hopened.fits
  have hsmall := hopened.small
  have hinside : index < cells.length := by omega
  have hfront : ((lists v).set index x).map some <+: cells.set index (some x) := by
    rw [List.map_set]
    obtain ⟨rest, hrest⟩ := hopened.front
    exact ⟨rest, by rw [← hrest, List.set_append_left _ _ (by rwa [List.length_map])]⟩
  have hfinal := hrefines.inPlace hopened (List.length_set ..) hfront (by rwa [List.length_set])
  rw [List.length_set, ← hopened.vector] at hfinal
  have hsame : (s.withCells data (cells.set index (some x))).withVector v (s.vectors v) =
    s.withCells data (cells.set index (some x)) := Store.withVector_eq_self _
  rw [hsame] at hfinal
  have hvalid : ¬ ((index : ℤ) < 0 ∨ (lists v).length ≤ toSize index) := by
    rw [toSize_natCast_small (by omega)]
    omega
  refine ⟨_, (returns_self hopened.vector).bind ?_, hfinal⟩
  rw [if_neg hvalid]
  exact harg.returns.bind (returns_store hopened.buffer hinside (some x))

/-- The vector that a change is about. -/
def Change.target : Change ι α → ι
  | .operation op => op.target
  | .setElement v _ _ => v

omit [DecidableEq ι] in
theorem Change.On.target {change : Change ι α} (hon : change.On a b) :
    change.target = a ∨ change.target = b := by
  cases change with
  | operation op => cases op <;> first | exact hon | exact False.elim hon
  | setElement v index value => exact hon

theorem change_leads {change : Change ι α} (hrefines : Refines s lists)
    (happly : change.apply lists = some lists') (hon : change.On a b) :
    ∃ xs s', lists' = Function.update lists change.target xs ∧ Returns change.call s () s' ∧
      Leads s lists change.target xs s' := by
  cases change with
  | operation op =>
      refine call_leads hrefines happly ?_
      rintro v w rfl
      exact hon
  | setElement v index value =>
      simp only [Change.apply, Option.bind_eq_bind, Option.bind_eq_some_iff] at happly
      obtain ⟨x, hx, happly⟩ := happly
      split_ifs at happly with hindex
      obtain ⟨-, rfl⟩ := withList_eq_some happly
      obtain ⟨arg, hpass, harg⟩ := hrefines.returns_pass hx
      obtain ⟨s', hcall, hleads⟩ := setElement_leads hrefines harg hindex
      exact ⟨_, s', rfl, hpass.bind hcall, hleads⟩

/-- Changes of two vectors keep the representation, and do not touch the others. -/
theorem callAll_refines {changes : List (Change ι α)} (hrefines : Refines s lists)
    (howned : Owned s) (hon : ∀ change ∈ changes, change.On a b)
    (happly : applyAll lists changes = some lists') :
    ∃ s', Returns (callAll changes) s () s' ∧ Refines s' lists' ∧ Owned s' ∧
      ∀ w, w ≠ a → w ≠ b → s'.vectors w = s.vectors w := by
  induction changes generalizing s lists with
  | nil =>
      obtain rfl := Option.some.inj happly
      exact ⟨s, returns_pure () s, hrefines, howned, fun _ _ _ => rfl⟩
  | cons change changes ih =>
      simp only [applyAll, Option.bind_eq_bind, Option.bind_eq_some_iff] at happly
      obtain ⟨lists₁, hfirst, hrest⟩ := happly
      have honFirst := hon change List.mem_cons_self
      obtain ⟨xs, s₁, rfl, hcall, hleads⟩ := change_leads hrefines hfirst honFirst
      obtain ⟨s', hcalls, hrefines', howned', hothers⟩ := ih hleads.refines (hleads.owned howned)
        (fun later hlater => hon later (List.mem_cons_of_mem _ hlater)) hrest
      refine ⟨s', hcall.bind hcalls, hrefines', howned', fun w ha hb => ?_⟩
      rw [hothers w ha hb]
      refine hleads.others w fun heq => ?_
      rcases honFirst.target with htarget | htarget
      · exact ha (heq.trans htarget)
      · exact hb (heq.trans htarget)

/-! ## Destructors -/

theorem returns_destroy {cells : List (Option α)} {this : MyVector} (hthis : s.vectors v = this)
    (hdata : s.heap.cellsAt this.mData = some cells) :
    Returns (destroy v) s ()
      ((s.without this.mData).withVector v { this with mSize := 0, mCapacity := 0 }) := by
  obtain ⟨data, size, capacity⟩ := this
  refine (returns_self hthis).bind ?_
  cases data with
  | none => exact returns_update hthis _
  | some addr =>
      have hused : (s.heap.arrays addr).isSome :=
        Option.isSome_of_eq_some (show s.heap.arrays addr = some cells from hdata)
      have hfree : Returns (deleteArray addr) s () (s.without (some addr)) := by
        refine (returns_get s).bind ?_
        rw [if_pos hused]
        rfl
      have hthis' : (s.without (some addr)).vectors v = ⟨some addr, size, capacity⟩ := hthis
      exact hfree.bind (returns_update hthis' _)

/-- An array that is released already cannot be released. -/
theorem stuck_destroy {addr : ℕ} (hdata : (s.vectors v).mData = some addr)
    (hreleased : s.heap.arrays addr = none) : Stuck (destroy v) s := by
  refine (returns_self rfl).bind_stuck ?_
  rw [hdata]
  refine Stuck.bind ((returns_get s).bind_stuck ?_)
  rw [hreleased]
  exact stuck_undefined s

/-- The two vectors go, and of all arrays those of other vectors are left. -/
theorem returns_destroy_both (hrefines : Refines s lists) (howned : Owned s) (hne : a ≠ b) :
    ∃ s', Returns (do destroy b; destroy a) s () s' ∧
      ∀ addr, (s'.heap.arrays addr).isSome ↔
        ∃ w, w ≠ a ∧ w ≠ b ∧ (s.vectors w).mData = some addr := by
  obtain ⟨dataA, cellsA, hopenedA⟩ := hrefines.opened a
  obtain ⟨dataB, cellsB, hopenedB⟩ := hrefines.opened b
  have hdataA : (s.vectors a).mData = dataA := by rw [hopenedA.vector]
  have hdataB : (s.vectors b).mData = dataB := by rw [hopenedB.vector]
  have hfirst := returns_destroy hopenedB.vector hopenedB.buffer
  have hvectorA : ((s.without dataB).withVector b ⟨dataB, 0, 0⟩).vectors a = _ :=
    (Function.update_of_ne hne ..).trans hopenedA.vector
  have hbufferA : ((s.without dataB).withVector b ⟨dataB, 0, 0⟩).heap.cellsAt dataA = some cellsA :=
    (ArrayHeap.Keeps.freeAt dataB s.heap).cellsAt (fun hsome heq => by
      obtain ⟨addr, haddr⟩ := Option.ne_none_iff_exists'.mp hsome
      refine hrefines.separate a b addr hne (hdataA.trans haddr) ?_
      rw [hdataB, heq, haddr]) hopenedA.buffer
  refine ⟨_, hfirst.bind (returns_destroy hvectorA hbufferA), fun addr => ?_⟩
  change (((s.heap.freeAt dataB).freeAt dataA).arrays addr).isSome ↔ _
  rw [ArrayHeap.isSome_freeAt_iff, ArrayHeap.isSome_freeAt_iff]
  constructor
  · rintro ⟨hotherA, hotherB, hused⟩
    obtain ⟨w, hw⟩ := howned addr hused
    refine ⟨w, ?_, ?_, hw⟩
    · rintro rfl
      exact hotherA (hdataA.symm.trans hw)
    · rintro rfl
      exact hotherB (hdataB.symm.trans hw)
  · rintro ⟨w, hwa, hwb, hw⟩
    refine ⟨fun heq => ?_, fun heq => ?_, ?_⟩
    · exact hrefines.separate w a addr hwa hw (hdataA.trans heq)
    · exact hrefines.separate w b addr hwb hw (hdataB.trans heq)
    · obtain ⟨cells, hcells, -⟩ := (hrefines.holds w).buffer
      rw [hw] at hcells
      exact Option.isSome_of_eq_some hcells

/-! ## Independence -/

/-- Whatever is done to a copy `b` of `a` and to `a` itself, each goes on standing for
its own list, and their destructors release every array that was made for them. -/
def Independent (s : Store ι α) (lists : ι → List α) (a b : ι) : Prop :=
  ∀ (changes : List (Change ι α)) (lists' : ι → List α), (∀ change ∈ changes, change.On a b) →
    applyAll (Function.update lists b (lists a)) changes = some lists' →
    ∃ s₁ s₂, Returns (do copy b a; callAll changes) s () s₁ ∧
      (∀ w, Represents s₁.heap (s₁.vectors w) (lists' w)) ∧
      Returns (do destroy b; destroy a) s₁ () s₂ ∧
      ∀ addr, (s₂.heap.arrays addr).isSome ↔
        ∃ w, w ≠ a ∧ w ≠ b ∧ (s.vectors w).mData = some addr

theorem returns_copy_fields (s : Store ι α) (b a : ι) :
    Returns (copy b a) s () (s.withVector b (s.vectors a)) :=
  (returns_self rfl).bind (returns_update rfl _)

omit [DecidableEq ι] in
theorem Refines.of_no_buffer (hrefines : Refines s lists) (hdata : (s.vectors v).mData = none) :
    s.vectors v = ⟨none, 0, 0⟩ ∧ lists v = [] := by
  obtain ⟨data, cells, hopened⟩ := hrefines.opened v
  have hvector := hopened.vector
  have hbuffer := hopened.buffer
  have hfits := hopened.fits
  rw [hvector] at hdata
  obtain rfl : data = none := hdata
  obtain rfl : [] = cells := Option.some.inj hbuffer
  have hnil : lists v = [] := List.length_eq_zero_iff.mp (by simpa using hfits)
  rw [hnil] at hvector
  exact ⟨hvector, hnil⟩

/-- The destructors of a vector with a buffer and of its copy both release it. -/
theorem Independent.original (hindependent : Independent s lists a b) (hrefines : Refines s lists)
    (hne : a ≠ b) : (s.vectors a).mData = none := by
  obtain ⟨s₁, s₂, hcopy, -, hdestroy, -⟩ := hindependent [] _ (by simp) rfl
  obtain ⟨-, rfl⟩ := hcopy.unique ((returns_copy_fields s b a).bind (returns_pure () _))
  obtain ⟨cells, hcells, -⟩ := (hrefines.holds a).buffer
  have hfirst := returns_destroy (s := s.withVector b (s.vectors a)) (v := b)
    (Store.vectors_withVector s) hcells
  by_contra hsome
  obtain ⟨addr, haddr⟩ := Option.ne_none_iff_exists'.mp hsome
  have hdata : (((s.withVector b (s.vectors a)).without (s.vectors a).mData).withVector b
      { s.vectors a with mSize := 0, mCapacity := 0 }).vectors a = s.vectors a := by
    change Function.update (Function.update s.vectors b _) b _ a = _
    rw [Function.update_of_ne hne, Function.update_of_ne hne]
  refine (hfirst.bind_stuck (stuck_destroy ((congrArg MyVector.mData hdata).trans haddr) ?_)).not_returns
    hdestroy
  rw [haddr]
  exact ArrayHeap.freeAt_arrays_self

/-- No destructor releases the buffer that the copy had before. -/
theorem Independent.target (hindependent : Independent s lists a b) (hrefines : Refines s lists)
    (hne : a ≠ b) : (s.vectors b).mData = none := by
  have horiginal := hindependent.original hrefines hne
  obtain ⟨s₁, s₂, hcopy, -, hdestroy, hleft⟩ := hindependent [] _ (by simp) rfl
  obtain ⟨-, rfl⟩ := hcopy.unique ((returns_copy_fields s b a).bind (returns_pure () _))
  obtain ⟨cells, hcells, -⟩ := (hrefines.holds a).buffer
  have hfirst := returns_destroy (s := s.withVector b (s.vectors a)) (v := b)
    (Store.vectors_withVector s) hcells
  have hvectorA : (((s.withVector b (s.vectors a)).without (s.vectors a).mData).withVector b
      { s.vectors a with mSize := 0, mCapacity := 0 }).vectors a = s.vectors a := by
    change Function.update (Function.update s.vectors b _) b _ a = _
    rw [Function.update_of_ne hne, Function.update_of_ne hne]
  have hsecond := returns_destroy hvectorA (by rw [horiginal]; rfl)
  obtain ⟨-, rfl⟩ := hdestroy.unique (hfirst.bind hsecond)
  by_contra hsome
  obtain ⟨addr, haddr⟩ := Option.ne_none_iff_exists'.mp hsome
  obtain ⟨old, hold, -⟩ := (hrefines.holds b).buffer
  rw [haddr] at hold
  have hkept : s.heap.arrays addr = some old := hold
  obtain ⟨w, -, hwb, hw⟩ := (hleft addr).mp (by
    change (((s.heap.freeAt (s.vectors a).mData).freeAt (s.vectors a).mData).arrays addr).isSome
    rw [horiginal]
    exact Option.isSome_of_eq_some hkept)
  exact hrefines.separate w b addr hwb hw haddr

/-- Between a vector and a copy of it nothing is shared exactly if there is no buffer,
neither of the original nor of the vector that becomes the copy. -/
theorem independent_iff (hrefines : Refines s lists) (howned : Owned s) (hne : a ≠ b) :
    Independent s lists a b ↔ (s.vectors a).mData = none ∧ (s.vectors b).mData = none := by
  constructor
  · exact fun hindependent =>
      ⟨hindependent.original hrefines hne, hindependent.target hrefines hne⟩
  · rintro ⟨hdataA, hdataB⟩ changes lists' hon happly
    obtain ⟨hvectorA, hlistA⟩ := hrefines.of_no_buffer hdataA
    obtain ⟨hvectorB, hlistB⟩ := hrefines.of_no_buffer hdataB
    have hsame : s.withVector b (s.vectors a) = s := by
      rw [hvectorA, ← hvectorB, Store.withVector_eq_self]
    rw [hlistA, ← hlistB, Function.update_eq_self] at happly
    obtain ⟨s₁, hcalls, hrefines₁, howned₁, hothers⟩ :=
      callAll_refines hrefines howned hon happly
    obtain ⟨s₂, hdestroy, hleft⟩ := returns_destroy_both hrefines₁ howned₁ hne
    have hcopy := returns_copy_fields s b a
    rw [hsame] at hcopy
    refine ⟨s₁, s₂, hcopy.bind hcalls, hrefines₁.represents, hdestroy, fun addr => ?_⟩
    rw [hleft]
    refine exists_congr fun w => and_congr_right fun ha => and_congr_right fun hb => ?_
    rw [hothers w ha hb]

/-- The copy of a new vector, among two. -/
theorem independent_iff_new :
    Independent (⟨.empty, fun _ => ⟨none, 0, 0⟩, fun _ => false⟩ : Store Bool ℕ) (fun _ => [])
      true false := by
  have howned : Owned (⟨.empty, fun _ => ⟨none, 0, 0⟩, fun _ => false⟩ : Store Bool ℕ) := by
    intro addr hused
    cases hused
  exact (independent_iff start_refines howned (by decide)).mpr ⟨rfl, rfl⟩

/-- A vector that holds `5`, and a new one. -/
def fullAndNew : Store Bool ℕ :=
  ⟨ArrayHeap.empty.alloc [some 5], fun v => if v then ⟨some 0, 1, 1⟩ else ⟨none, 0, 0⟩,
    fun _ => false⟩

theorem fullAndNew_refines : Refines fullAndNew fun v => if v then [5] else [] where
  holds := by
    intro v
    cases v with
    | true => exact ⟨rfl, by decide, by decide, [some 5], rfl, rfl, List.prefix_rfl⟩
    | false => exact ⟨rfl, by decide, by decide, [], rfl, rfl, List.nil_prefix⟩
  separate := by
    intro v w addr hne hv
    cases v with
    | true =>
        cases w with
        | true => exact absurd rfl hne
        | false => exact nofun
    | false => cases hv
  memory := fun _ => rfl

/-- A copy of the vector that holds `5`. -/
theorem not_independent :
    ¬ ∀ (s : Store Bool ℕ) (lists : Bool → List ℕ), Refines s lists → Owned s →
      Independent s lists true false := by
  intro hall
  have howned : Owned fullAndNew := by
    intro addr hused
    refine ⟨true, ?_⟩
    by_contra hother
    have hne : addr ≠ ArrayHeap.empty.next (σ := Option ℕ) := fun heq => hother (by rw [heq]; rfl)
    rw [fullAndNew, ArrayHeap.alloc_arrays_of_ne hne] at hused
    cases hused
  have hshared := (hall fullAndNew _ fullAndNew_refines howned).original fullAndNew_refines (by decide)
  cases hshared

end MyVector

end CppProjects
