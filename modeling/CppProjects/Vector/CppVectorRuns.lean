import CppProjects.Vector.CppVectorAssign
import CppProjects.Core.TransitionSystem

/-!
# Runs of `vector` operations

Any number of vectors that are constructed, changed, assigned to each other and destroyed,
beside the lists they stand for.  As long as no allocation fails, the vectors hold the
elements of the lists.
-/

namespace CppProjects

open CInt Program

namespace CppVector

variable {ι α : Type} {s s' s'' : Store ι α} {lists lists' lists'' : ι → Option (List α)} {v w : ι}
  {xs ys : List α} {x : α} {data : Option ℕ} {cells : List (Slot α)} {n p : ℕ} {P Q : Prop}

/-! ## Vectors and their lists -/

/-- The vectors that are there hold the elements of their lists, in buffers of their own.
There is no list for a vector that was not constructed, or was destroyed. -/
structure Refines (s : Store ι α) (lists : ι → Option (List α)) : Prop where
  opened : ∀ v xs, lists v = some xs → ∃ data cells, Opened s v xs data cells
  separate : ∀ v w xs ys addr, v ≠ w → lists v = some xs → lists w = some ys →
    (s.vectors v).data = some addr → (s.vectors w).data ≠ some addr

/-- No object was lost, none stands behind the elements of a vector, and each buffer belongs
to a vector. -/
structure Tidy (s : Store ι α) (lists : ι → Option (List α)) : Prop where
  lost : s.lost = 0
  clean : ∀ v xs, lists v = some xs → Clean s v
  owned : ∀ addr, (s.heap.arrays addr).isSome →
    ∃ v xs, lists v = some xs ∧ (s.vectors v).data = some addr

/-- The outcome of an operation on the vectors. -/
structure Follows (s : Store ι α) (lists : ι → Option (List α)) (P : Prop) (s' : Store ι α)
    (lists' : ι → Option (List α)) : Prop where
  refines : Refines s' lists'
  tidy : P → Tidy s lists → Tidy s' lists'

theorem Follows.trans (h : Follows s lists P s' lists') (h' : Follows s' lists' Q s'' lists'')
    (himp : P → Q) : Follows s lists P s'' lists'' where
  refines := h'.refines
  tidy hP htidy := h'.tidy (himp hP) (h.tidy hP htidy)

theorem Follows.weaken (h : Follows s lists P s' lists') (himp : Q → P) :
    Follows s lists Q s' lists' where
  refines := h.refines
  tidy hQ := h.tidy (himp hQ)

theorem Refines.follows_self (hrefines : Refines s lists) : Follows s lists P s lists where
  refines := hrefines
  tidy _ htidy := htidy

/-- The buffer that an operation on `v` may release: none while `v` is constructed. -/
def ownBuffer (s : Store ι α) (lists : ι → Option (List α)) (v : ι) : Option ℕ :=
  (lists v).bind fun _ => (s.vectors v).data

theorem Refines.apart_own (hrefines : Refines s lists) (hw : Opened s w ys data cells)
    (hys : lists w = some ys) (hne : w ≠ v) : data ≠ none → ownBuffer s lists v ≠ data := by
  intro hsome heq
  obtain ⟨addr, rfl⟩ := Option.ne_none_iff_exists'.mp hsome
  obtain ⟨xs, hxs, hdata⟩ := Option.bind_eq_some_iff.mp heq
  exact hrefines.separate w v ys xs addr hne hys hxs hw.data_eq hdata

section Names

variable [DecidableEq ι]

theorem Leads.refines (h : Leads s (ownBuffer s lists v) v ys P s') (hrefines : Refines s lists) :
    Refines s' (Function.update lists v (some ys)) where
  opened u xs hxs := by
    by_cases hu : u = v
    · subst hu
      rw [Function.update_self] at hxs
      obtain rfl := Option.some.inj hxs
      exact h.opened
    · rw [Function.update_of_ne hu] at hxs
      obtain ⟨data, cells, hopened⟩ := hrefines.opened u xs hxs
      exact ⟨data, cells, h.opened_other hopened hu (hrefines.apart_own hopened hxs hu)⟩
  separate := by
    -- the buffer of `v` is the one it had, or a new one
    have hother : ∀ u zs addr, u ≠ v → lists u = some zs → (s'.vectors v).data = some addr →
        (s'.vectors u).data ≠ some addr := by
      intro u zs addr hu hzs hdata
      obtain ⟨data, cells, hopened⟩ := hrefines.opened u zs hzs
      have hu' := (h.opened_other hopened hu (hrefines.apart_own hopened hzs hu)).data_eq
      rw [hu', ← hdata]
      rintro rfl
      exact h.apart hopened (hrefines.apart_own hopened hzs hu) (by rw [hdata]; nofun) rfl
    intro u u' xs zs addr hne hxs hzs hdata
    by_cases hu : u = v
    · subst hu
      rw [Function.update_of_ne hne.symm] at hzs
      exact hother u' zs addr hne.symm hzs hdata
    · rw [Function.update_of_ne hu] at hxs
      by_cases hu' : u' = v
      · subst hu'
        exact fun hdata' => hother u xs addr hu hxs hdata' hdata
      · rw [Function.update_of_ne hu'] at hzs
        rw [h.others u hu] at hdata
        rw [h.others u' hu']
        exact hrefines.separate u u' xs zs addr hne hxs hzs hdata

theorem Leads.tidy (h : Leads s (ownBuffer s lists v) v ys P s') (hrefines : Refines s lists)
    (hP : P) (htidy : Tidy s lists) : Tidy s' (Function.update lists v (some ys)) where
  lost := (h.clean hP).1.trans htidy.lost
  clean u zs hzs := by
    by_cases hu : u = v
    · rw [hu]
      exact (h.clean hP).2
    · rw [Function.update_of_ne hu] at hzs
      obtain ⟨data, cells, hopened⟩ := hrefines.opened u zs hzs
      have hopened' := h.opened_other hopened hu (hrefines.apart_own hopened hzs hu)
      exact hopened'.clean_iff.mpr (hopened.clean_iff.mp (htidy.clean u zs hzs))
  owned addr haddr := by
    rcases h.owned addr haddr with hnow | ⟨hother, hbefore⟩
    · exact ⟨v, ys, Function.update_self .., hnow⟩
    · obtain ⟨u, zs, hzs, hdata⟩ := htidy.owned addr hbefore
      have hu : u ≠ v := by
        rintro rfl
        exact hother (Option.bind_eq_some_iff.mpr ⟨zs, hzs, hdata⟩)
      exact ⟨u, zs, (Function.update_of_ne hu ..).trans hzs, by rw [h.others u hu, hdata]⟩

/-- What an operation does to one vector it does to its list, and to no other. -/
theorem Leads.follows (h : Leads s (ownBuffer s lists v) v ys Q s') (hrefines : Refines s lists)
    (himp : P → Tidy s lists → Q) :
    Follows s lists P s' (Function.update lists v (some ys)) where
  refines := h.refines hrefines
  tidy hP htidy := h.tidy hrefines (himp hP htidy) htidy

end Names

/-- Buffers may go from one vector to another one; the allocators are not looked at. -/
theorem Refines.relabel (hrefines : Refines s lists) (names : Equiv.Perm ι) (hheap : s'.heap = s.heap)
    (hlost : s'.lost = s.lost)
    (hsame : ∀ u xs, lists' u = some xs → lists (names u) = some xs ∧
      ∃ a, s'.vectors u = { s.vectors (names u) with alloc := a })
    (hback : ∀ u xs, lists u = some xs →
      lists' (names.symm u) = some xs ∨ (s.vectors u).data = none) :
    Follows s lists P s' lists' := by
  have hdata : ∀ u xs, lists' u = some xs → (s'.vectors u).data = (s.vectors (names u)).data := by
    intro u xs hxs
    obtain ⟨-, a, hvector⟩ := hsame u xs hxs
    rw [hvector]
  have hopened : ∀ u xs, lists' u = some xs → ∀ data cells, Opened s (names u) xs data cells →
      Opened s' u xs data cells := by
    intro u xs hxs data cells hbefore
    obtain ⟨-, a, hvector⟩ := hsame u xs hxs
    refine ⟨?_, hheap ▸ hbefore.buffer, hbefore.small, hbefore.front⟩
    rw [hvector, hbefore.vector]
  refine ⟨⟨fun u xs hxs => ?_, fun u u' xs zs addr hne hxs hzs hu => ?_⟩, fun _ htidy => ?_⟩
  · obtain ⟨data, cells, hbefore⟩ := hrefines.opened _ xs (hsame u xs hxs).1
    exact ⟨data, cells, hopened u xs hxs data cells hbefore⟩
  · rw [hdata u xs hxs] at hu
    rw [hdata u' zs hzs]
    exact hrefines.separate _ _ xs zs addr (fun heq => hne (names.injective heq)) (hsame u xs hxs).1
      (hsame u' zs hzs).1 hu
  · refine ⟨hlost.trans htidy.lost, fun u xs hxs => ?_, fun addr haddr => ?_⟩
    · obtain ⟨data, cells, hbefore⟩ := hrefines.opened _ xs (hsame u xs hxs).1
      exact (hopened u xs hxs data cells hbefore).clean_iff.mpr
        (hbefore.clean_iff.mp (htidy.clean _ xs (hsame u xs hxs).1))
    · rw [hheap] at haddr
      obtain ⟨u, xs, hxs, hu⟩ := htidy.owned addr haddr
      rcases hback u xs hxs with hkept | hnone
      · refine ⟨names.symm u, xs, hkept, ?_⟩
        rw [hdata _ xs hkept, Equiv.apply_symm_apply, hu]
      · rw [hnone] at hu
        cases hu

/-! ## Whole vectors -/

/-- A vector that is there owns its buffer. -/
theorem own_some (hxs : lists v = some xs) : ownBuffer s lists v = (s.vectors v).data := by
  rw [ownBuffer, hxs, Option.bind_some]

theorem own_none (hnone : lists v = none) : ownBuffer s lists v = none := by
  rw [ownBuffer, hnone, Option.bind_none]

theorem Refines.opened_own (hrefines : Refines s lists) (hxs : lists v = some xs) :
    ∃ cells, Opened s v xs (ownBuffer s lists v) cells := by
  obtain ⟨data, cells, hopened⟩ := hrefines.opened v xs hxs
  rw [own_some hxs, hopened.data_eq]
  exact ⟨cells, hopened⟩

variable [DecidableEq ι]

/-- `v` and `w` have exchanged their buffers. -/
theorem Refines.exchanged (hrefines : Refines s lists) (hxs : lists v = some xs)
    (hys : lists w = some ys) (hheap : s'.heap = s.heap) (hlost : s'.lost = s.lost)
    (hv : ∃ a, s'.vectors v = { s.vectors w with alloc := a })
    (hw : ∃ a, s'.vectors w = { s.vectors v with alloc := a })
    (hothers : ∀ u, u ≠ v → u ≠ w → s'.vectors u = s.vectors u) :
    Follows s lists P s' (Function.update (Function.update lists w (some xs)) v (some ys)) := by
  have hlists : Function.update (Function.update lists w (some xs)) v (some ys) =
      lists ∘ Equiv.swap v w := by
    rw [Equiv.comp_swap_eq_update, hxs, hys]
  rw [hlists]
  refine hrefines.relabel (Equiv.swap v w) hheap hlost (fun u zs hzs => ⟨hzs, ?_⟩) fun u zs hzs => ?_
  · rw [Equiv.swap_apply_def]
    split_ifs with huv huw
    · rwa [huv]
    · rwa [huw]
    · exact ⟨_, hothers u huv huw⟩
  · refine .inl ?_
    rwa [Function.comp_apply, Equiv.apply_symm_apply]

/-- What `swap` leaves of the vectors, which may be one. -/
theorem returns_swap (v w : ι) (s : Store ι α) :
    ∃ s', Returns (swap v w) s () s' ∧ s'.heap = s.heap ∧ s'.lost = s.lost ∧
      (∃ a, s'.vectors v = { s.vectors w with alloc := a }) ∧
      (∃ a, s'.vectors w = { s.vectors v with alloc := a }) ∧
      ∀ u, u ≠ v → u ≠ w → s'.vectors u = s.vectors u := by
  refine ⟨_, (returns_get s).bind ((returns_self rfl).bind ((returns_self rfl).bind
    ((returns_update rfl _).bind (returns_update rfl _)))), rfl, rfl, ?_, ⟨_, Function.update_self ..⟩,
    fun u hv hw => (Function.update_of_ne hw ..).trans (Function.update_of_ne hv ..)⟩
  by_cases hsame : v = w
  · subst hsame
    exact ⟨_, Function.update_self ..⟩
  · exact ⟨_, (Function.update_of_ne hsame ..).trans (Function.update_self ..)⟩

theorem turns_swap (hrefines : Refines s lists) (hxs : lists v = some xs) (hys : lists w = some ys) :
    Turns (swap v w) s fun _ s' => Follows s lists P s'
      (Function.update (Function.update lists w (some xs)) v (some ys)) := by
  obtain ⟨s', hswap, hheap, hlost, hv, hw, hothers⟩ := returns_swap v w s
  exact .of_returns hswap (hrefines.exchanged hxs hys hheap hlost hv hw hothers)

/-- The buffer of `w` goes to a vector `v` that is empty, or is as good as empty. -/
theorem Follows.taken {t : Store ι α} (h : Follows s lists P t (Function.update lists v (some [])))
    (hnull : ∃ a, t.vectors v = ⟨a, none, 0, 0⟩) (hne : v ≠ w) (hys : lists w = some ys)
    (hheap : s'.heap = t.heap) (hlost : s'.lost = t.lost)
    (hv : ∃ a, s'.vectors v = { t.vectors w with alloc := a })
    (hw : ∃ a, s'.vectors w = ⟨a, none, 0, 0⟩)
    (hothers : ∀ u, u ≠ v → u ≠ w → s'.vectors u = t.vectors u) :
    Follows s lists P s' (Function.update (Function.update lists w (some [])) v (some ys)) := by
  obtain ⟨a, hnull⟩ := hnull
  have hys' : Function.update lists v (some []) w = some ys := by
    rwa [Function.update_of_ne hne.symm]
  have hexchanged : Follows t _ P s' _ := h.refines.exchanged (Function.update_self ..) hys' hheap hlost
    hv (by rwa [hnull]) hothers
  have hlists : Function.update (Function.update (Function.update lists v (some [])) w (some []))
      v (some ys) = Function.update (Function.update lists w (some [])) v (some ys) := by
    rw [Function.update_comm hne, Function.update_idem]
  rw [hlists] at hexchanged
  exact h.trans hexchanged id

theorem turns_moveConstruct (hrefines : Refines s lists) (hnone : lists v = none)
    (hys : lists w = some ys) :
    Turns (moveConstruct v w) s fun _ s' => Follows s lists P s'
      (Function.update (Function.update lists w (some [])) v (some ys)) := by
  have hne : v ≠ w := by
    rintro rfl
    rw [hys] at hnone
    cases hnone
  have hempty : Leads s (ownBuffer s lists v) v [] True (s.withVector v ⟨0, none, 0, 0⟩) := by
    rw [own_none hnone]
    exact leads_null 0
  refine .of_returns ((returns_self rfl).bind ((returns_update rfl _).bind (returns_update rfl _)))
    ((hempty.follows hrefines fun _ _ => trivial).taken ⟨0, Function.update_self ..⟩ hne hys rfl rfl
      ?_ ?_ fun u hv hw => ?_)
  · exact ⟨_, (Function.update_self ..).trans (Function.update_of_ne hne.symm ..).symm⟩
  · exact ⟨_, (Function.update_of_ne hne.symm ..).trans (Function.update_self ..)⟩
  · exact (Function.update_of_ne hv ..).trans
      ((Function.update_of_ne hw ..).trans (Function.update_of_ne hv ..).symm)

/-- The allocator is no part of what a vector holds. -/
theorem Opened.returns_moveAllocator (hopened : Opened s v xs data cells) (b : ℕ) :
    ∃ a, Returns (moveAllocator v b) s () (s.withVector v ⟨a, data, xs.length, cells.length⟩) ∧
      Opened (s.withVector v ⟨a, data, xs.length, cells.length⟩) v xs data cells := by
  have hwith : ∀ a, Opened (s.withVector v ⟨a, data, xs.length, cells.length⟩) v xs data cells :=
    fun a => ⟨by rw [Store.vectors_withVector], hopened.buffer, hopened.small, hopened.front⟩
  by_cases hpropagates : s.traits.propagateOnMove = true
  · refine ⟨b, (returns_get s).bind ?_, hwith b⟩
    rw [if_pos hpropagates]
    exact returns_update hopened.vector _
  · refine ⟨(s.vectors v).alloc, (returns_get s).bind ?_, hwith _⟩
    rw [if_neg hpropagates, Store.withVector_self hopened.vector]
    exact returns_pure () s

/-- The fields of `w`, as they were in `other`, go to `v`. -/
theorem returns_exchange (hne : v ≠ w) (other : CppVector) (s : Store ι α) :
    ∃ s', Returns (do
        update v fun this =>
          { this with data := other.data, size := other.size, capacity := other.capacity }
        update w fun other => { other with data := none, size := 0, capacity := 0 }) s () s' ∧
      s'.heap = s.heap ∧ s'.lost = s.lost ∧ (∃ a, s'.vectors v = { other with alloc := a }) ∧
      (∃ a, s'.vectors w = ⟨a, none, 0, 0⟩) ∧ ∀ u, u ≠ v → u ≠ w → s'.vectors u = s.vectors u :=
  ⟨_, (returns_update rfl _).bind (returns_update rfl _), rfl, rfl,
    ⟨_, (Function.update_of_ne hne ..).trans (Function.update_self ..)⟩, ⟨_, Function.update_self ..⟩,
    fun _ hv hw => (Function.update_of_ne hw ..).trans (Function.update_of_ne hv ..)⟩

theorem turns_moveAssign (hrefines : Refines s lists) (hxs : lists v = some xs)
    (hys : lists w = some ys) :
    Turns (moveAssign v w) s fun _ s' => Follows s lists P s'
      (Function.update (Function.update lists w (some [])) v (some ys)) := by
  rw [moveAssign]
  split_ifs with hsame
  · subst hsame
    obtain rfl := Option.some.inj (hxs.symm.trans hys)
    rw [Function.update_idem, ← hxs, Function.update_eq_self]
    exact .of_returns (returns_pure () s) hrefines.follows_self
  · obtain ⟨cells, hopened⟩ := hrefines.opened_own hxs
    have hreleased : Follows s lists P _ _ := (hopened.leads_released 0).follows hrefines
      fun _ htidy => htidy.clean v xs hxs
    obtain ⟨a, hallocator, hopened'⟩ := hopened.returns_moveAllocator (s.vectors w).alloc
    obtain ⟨s', hexchange, hheap, hlost, hv, hw, hothers⟩ := returns_exchange hsame (s.vectors w) _
    refine .of_returns ((returns_self rfl).bind (hallocator.bind (hopened'.returns_release.bind
      hexchange))) (hreleased.taken ⟨0, Function.update_self ..⟩ hsame hys hheap hlost ?_ hw
        fun u hu huw => ?_)
    · have hkept : ∀ t : Store ι α, (t.withVector v ⟨0, none, 0, 0⟩).vectors w = t.vectors w :=
        fun t => Function.update_of_ne (Ne.symm hsame) ..
      rwa [hkept]
    · refine (hothers u hu huw).trans ?_
      exact (Function.update_of_ne hu ..).trans
        ((Function.update_of_ne hu ..).trans (Function.update_of_ne hu ..).symm)

theorem turns_destroy (hrefines : Refines s lists) (hxs : lists v = some xs) :
    Turns (destroy v) s fun _ s' => Follows s lists P s' (Function.update lists v none) := by
  obtain ⟨cells, hopened⟩ := hrefines.opened_own hxs
  have hreleased : Follows s lists P _ _ := (hopened.leads_released 0).follows hrefines
    fun _ htidy => htidy.clean v xs hxs
  refine .of_returns hopened.returns_release (hreleased.trans (hreleased.refines.relabel
    (Equiv.refl ι) rfl rfl (fun u zs hzs => ?_) fun u zs hzs => ?_) id)
  · have hu : u ≠ v := by
      rintro rfl
      rw [Function.update_self] at hzs
      cases hzs
    rw [Function.update_of_ne hu] at hzs
    exact ⟨(Function.update_of_ne hu ..).trans hzs, _,
      (Function.update_of_ne hu ..).trans (Function.update_of_ne hu ..).symm⟩
  · by_cases hu : u = v
    · rw [hu, Store.vectors_withVector]
      exact .inr rfl
    · rw [Function.update_of_ne hu] at hzs
      exact .inl ((Function.update_of_ne hu ..).trans hzs)

/-! ## Operations -/

/-- A value given to an operation: one of the program's own, or an element of a vector. -/
inductive Value (ι α : Type)
  | const (value : α)
  | element (w : ι) (index : ℕ)
deriving DecidableEq, Repr

/-- The operations, with positions counted from `begin()`. -/
inductive Op (ι α : Type)
  | create (v : ι) (alloc : ℕ)
  | createFilled (v : ι) (n : ℕ) (value : Value ι α) (alloc : ℕ)
  | createFrom (v : ι) (init : List α) (alloc : ℕ)
  | copyConstruct (v w : ι)
  | moveConstruct (v w : ι)
  | destroy (v : ι)
  | copyAssign (v w : ι)
  | moveAssign (v w : ι)
  | swap (v w : ι)
  | pushBack (v : ι) (value : Value ι α)
  | emplaceBack (v : ι) (value : Value ι α)
  | emplace (v : ι) (pos : ℕ) (value : Value ι α)
  | insert (v : ι) (pos : ℕ) (value : Value ι α)
  | erase (v : ι) (pos : ℕ)
  | eraseRange (v : ι) (first last : ℕ)
  | popBack (v : ι)
  | resize (v : ι) (n : ℕ) (value : Value ι α)
  | reserve (v : ι) (n : ℕ)
  | shrinkToFit (v : ι)
  | clear (v : ι)
deriving DecidableEq, Repr

omit [DecidableEq ι] in
/-- The reference that is passed for a value. -/
def Value.pass : Value ι α → M ι α (Arg α)
  | .const value => pure (.temp value)
  | .element w index => do
      let that ← self w
      return .slot that.data index

/-- An operation that returns nothing. -/
def silent (program : M ι α Unit) : M ι α (Option Iterator) := do
  program
  return none

/-- An operation that returns a position. -/
def positioned (program : M ι α Iterator) : M ι α (Option Iterator) := do
  return some (← program)

/-- An operation as the program calls it. -/
def Op.call : Op ι α → M ι α (Option Iterator)
  | .create v alloc => silent (CppVector.create v alloc)
  | .createFilled v n value alloc => silent do CppVector.createFilled v n (← value.pass) alloc
  | .createFrom v init alloc => silent (CppVector.createFrom v init alloc)
  | .copyConstruct v w => silent (CppVector.copyConstruct v w)
  | .moveConstruct v w => silent (CppVector.moveConstruct v w)
  | .destroy v => silent (CppVector.destroy v)
  | .copyAssign v w => silent (CppVector.copyAssign v w)
  | .moveAssign v w => silent (CppVector.moveAssign v w)
  | .swap v w => silent (CppVector.swap v w)
  | .pushBack v value => silent do CppVector.pushBack v (← value.pass)
  | .emplaceBack v value => positioned do CppVector.emplaceBack v (← value.pass)
  | .emplace v pos value => positioned do
      let arg ← value.pass
      CppVector.emplace v ⟨(← self v).data, pos⟩ arg
  | .insert v pos value => positioned do
      let arg ← value.pass
      CppVector.insert v ⟨(← self v).data, pos⟩ arg
  | .erase v pos => positioned do CppVector.erase v ⟨(← self v).data, pos⟩
  | .eraseRange v first last => positioned do
      let this ← self v
      CppVector.eraseRange v ⟨this.data, first⟩ ⟨this.data, last⟩
  | .popBack v => silent (CppVector.popBack v)
  | .resize v n value => silent do CppVector.resize v n (← value.pass)
  | .reserve v n => silent (CppVector.reserve v n)
  | .shrinkToFit v => silent (CppVector.shrinkToFit v)
  | .clear v => silent (CppVector.clear v)

/-! ## Lists -/

/-- The value an operation on `v` uses; elements of `v` itself are not allowed. -/
def Value.denote (lists : ι → Option (List α)) (v : ι) : Value ι α → Option α
  | .const value => some value
  | .element w index => if w = v then none else (lists w).bind fun xs => xs[index]?

/-- The lists with one for a new vector. -/
def created (lists : ι → Option (List α)) (v : ι) (xs : List α) : Option (ι → Option (List α)) :=
  if (lists v).isNone then some (Function.update lists v (some xs)) else none

/-- The lists with another one for `v`. -/
def changed (lists : ι → Option (List α)) (v : ι) (f : List α → Option (List α)) :
    Option (ι → Option (List α)) := do
  let xs ← lists v
  let ys ← f xs
  return Function.update lists v (some ys)

/-- The elements with `x` in front of those from `pos` on. -/
def inserted (pos : ℕ) (x : α) (xs : List α) : Option (List α) :=
  if pos ≤ xs.length then some (xs.take pos ++ x :: xs.drop pos) else none

/-- The lists after an operation, if it is a valid one. -/
def Op.apply (lists : ι → Option (List α)) : Op ι α → Option (ι → Option (List α))
  | .create v _ => created lists v []
  | .createFilled v n value _ => do
      let x ← value.denote lists v
      created lists v (List.replicate n x)
  | .createFrom v init _ => created lists v init
  | .copyConstruct v w => do
      let ys ← lists w
      created lists v ys
  | .moveConstruct v w => do
      let ys ← lists w
      created (Function.update lists w (some [])) v ys
  | .destroy v => do
      let _ ← lists v
      return Function.update lists v none
  | .copyAssign v w => do
      let ys ← lists w
      changed lists v fun _ => some ys
  | .moveAssign v w => do
      let _ ← lists v
      let ys ← lists w
      return Function.update (Function.update lists w (some [])) v (some ys)
  | .swap v w => do
      let xs ← lists v
      let ys ← lists w
      return Function.update (Function.update lists w (some xs)) v (some ys)
  | .pushBack v value | .emplaceBack v value => do
      let x ← value.denote lists v
      changed lists v fun xs => some (xs ++ [x])
  | .emplace v pos value | .insert v pos value => do
      let x ← value.denote lists v
      changed lists v (inserted pos x)
  | .erase v pos => changed lists v fun xs => if pos < xs.length then some (xs.eraseIdx pos) else none
  | .eraseRange v first last => changed lists v fun xs =>
      if first ≤ last ∧ last ≤ xs.length then some (xs.take first ++ xs.drop last) else none
  | .popBack v => changed lists v fun xs => some xs.dropLast
  | .resize v n value => do
      let x ← value.denote lists v
      changed lists v fun xs => some (xs.take n ++ List.replicate (n - xs.length) x)
  | .reserve v _ | .shrinkToFit v => changed lists v some
  | .clear v => changed lists v fun _ => some []

/-- Where the element stands that an operation returns: the new one, or the one behind those
that were erased. -/
def Op.position (lists : ι → Option (List α)) : Op ι α → Option (ι × ℕ)
  | .emplaceBack v _ => (lists v).map fun xs => (v, xs.length)
  | .emplace v pos _ | .insert v pos _ | .erase v pos | .eraseRange v pos _ => some (v, pos)
  | _ => none

/-! ## One operation -/

/-- The vectors have followed the lists, and the position returned is the one of the element
that is documented. -/
def Outcome (s : Store ι α) (lists : ι → Option (List α)) (P : Prop)
    (lists' : ι → Option (List α)) (place : Option (ι × ℕ)) (pos : Option Iterator)
    (s' : Store ι α) : Prop :=
  Follows s lists P s' lists' ∧ pos = place.map fun at' => ⟨(s'.vectors at'.1).data, at'.2⟩

theorem created_eq_some (hcreated : created lists v xs = some lists') :
    lists v = none ∧ Function.update lists v (some xs) = lists' := by
  rw [created] at hcreated
  split_ifs at hcreated with hnone
  exact ⟨Option.isNone_iff_eq_none.mp hnone, Option.some.inj hcreated⟩

/-- What is known of a vector that is changed. -/
theorem Refines.changed (hrefines : Refines s lists) {f : List α → Option (List α)}
    (hchanged : changed lists v f = some lists') :
    ∃ xs ys cells, lists v = some xs ∧ f xs = some ys ∧ Function.update lists v (some ys) = lists' ∧
      Opened s v xs (ownBuffer s lists v) cells := by
  simp only [CppVector.changed, Option.bind_eq_bind, Option.bind_eq_some_iff] at hchanged
  obtain ⟨xs, hxs, ys, hys, hlists⟩ := hchanged
  obtain ⟨cells, hopened⟩ := hrefines.opened_own hxs
  exact ⟨xs, ys, cells, hxs, hys, Option.some.inj hlists, hopened⟩

omit [DecidableEq ι] in
theorem inserted_eq_some (hinserted : inserted p x xs = some ys) :
    p ≤ xs.length ∧ xs.take p ++ x :: xs.drop p = ys := by
  rw [inserted] at hinserted
  split_ifs at hinserted with hp
  exact ⟨hp, Option.some.inj hinserted⟩

theorem Refines.returns_pass (hrefines : Refines s lists) {value : Value ι α}
    (hvalue : value.denote lists v = some x) :
    ∃ arg, Returns value.pass s arg s ∧ Arg.Denotes s.heap (ownBuffer s lists v) x arg := by
  cases value with
  | const given =>
      obtain rfl : given = x := Option.some.inj hvalue
      exact ⟨.temp given, returns_pure _ s, .temp⟩
  | element w index =>
      rw [Value.denote] at hvalue
      split_ifs at hvalue with hne
      obtain ⟨ys, hys, hget⟩ := Option.bind_eq_some_iff.mp hvalue
      obtain ⟨data, cells, hopened⟩ := hrefines.opened w ys hys
      refine ⟨.slot data index, (returns_self hopened.vector).bind (returns_pure _ s), ?_⟩
      have hslot := hopened.getElem? hget
      have hapart := hrefines.apart_own hopened hys hne
      have hbuffer := hopened.buffer
      cases data with
      | none =>
          obtain rfl : [] = cells := Option.some.inj hbuffer
          cases hslot
      | some addr => exact .slot (hapart nofun) hbuffer hslot

omit [DecidableEq ι] in
theorem turns_silent {program : M ι α Unit}
    (h : Turns program s fun _ s' => Follows s lists P s' lists') :
    Turns (silent program) s (Outcome s lists P lists' none) :=
  h.bind fun _ s' hfollows => .of_returns (returns_pure none s') ⟨hfollows, rfl⟩

theorem Refines.turns_leads (hrefines : Refines s lists) {program : M ι α Unit}
    (h : Turns program s fun _ s' => Leads s (ownBuffer s lists v) v ys Q s')
    (himp : P → Tidy s lists → Q) :
    Turns (silent program) s (Outcome s lists P (Function.update lists v (some ys)) none) :=
  turns_silent (h.mono fun _ _ hleads => hleads.follows hrefines himp)

theorem Refines.turns_inserts (hrefines : Refines s lists) (hxs : lists v = some xs)
    {program : M ι α Iterator}
    (h : Turns program s fun pos s' => Inserts s (ownBuffer s lists v) v ys p pos s') :
    Turns (positioned program) s
      (Outcome s lists P (Function.update lists v (some ys)) (some (v, p))) := by
  refine h.bind ?_
  rintro pos s' ⟨hleads, rfl⟩
  exact .of_returns (returns_pure _ s')
    ⟨hleads.follows hrefines fun _ htidy => htidy.clean v xs hxs, rfl⟩

/-- An operation that constructs over elements, or releases them as they are. -/
def Op.Overwrites (s : Store ι α) : Op ι α → Prop
  | .copyAssign v w => CppVector.Overwrites s v w
  | _ => False

/-- Of the operations that find a vector and return nothing. -/
theorem Refines.turns_changed (hrefines : Refines s lists) {f : List α → Option (List α)}
    {program : M ι α Unit} (happly : CppVector.changed lists v f = some lists')
    (h : ∀ xs ys cells, f xs = some ys → Opened s v xs (ownBuffer s lists v) cells →
      Turns program s fun _ s' => Leads s (ownBuffer s lists v) v ys (Clean s v) s') :
    Turns (silent program) s (Outcome s lists P lists' none) := by
  obtain ⟨xs, ys, cells, hxs, hys, rfl, hopened⟩ := hrefines.changed happly
  exact hrefines.turns_leads (h xs ys cells hys hopened) fun _ htidy => htidy.clean v xs hxs

/-- Of those that make a new vector. -/
theorem Refines.turns_created (hrefines : Refines s lists) {program : M ι α Unit}
    (happly : created lists v ys = some lists')
    (h : Turns program s fun _ s' => Leads s none v ys True s') :
    Turns (silent program) s (Outcome s lists P lists' none) := by
  obtain ⟨hnone, rfl⟩ := created_eq_some happly
  rw [← own_none (s := s) hnone] at h
  exact hrefines.turns_leads h fun _ _ => trivial

/-- Of those that find a vector and return a position. -/
theorem Refines.turns_placed (hrefines : Refines s lists) {f : List α → Option (List α)}
    {program : CppVector → M ι α Iterator} (happly : CppVector.changed lists v f = some lists')
    (h : ∀ xs ys cells, lists v = some xs → f xs = some ys →
      Opened s v xs (s.vectors v).data cells → Turns (program (s.vectors v)) s fun pos s' =>
        Inserts s (s.vectors v).data v ys p pos s') :
    Turns (positioned do program (← self v)) s (Outcome s lists P lists' (some (v, p))) := by
  obtain ⟨xs, ys, cells, hxs, hys, rfl, hopened⟩ := hrefines.changed happly
  rw [own_some hxs] at hopened
  have hprogram := Turns.after (returns_self (s := s) rfl) (h xs ys cells hxs hys hopened)
  rw [← own_some hxs] at hprogram
  exact hrefines.turns_inserts hxs hprogram

theorem turns_assign (hrefines : Refines s lists)
    (happly : (Op.copyAssign v w).apply lists = some lists') :
    Turns (copyAssign v w) s fun _ s' => Follows s lists (¬ Overwrites s v w) s' lists' := by
  obtain ⟨ys, hys, hlists⟩ := Option.bind_eq_some_iff.mp happly
  obtain ⟨xs, _, cells, hxs, hsome, rfl, hopened⟩ := hrefines.changed hlists
  obtain rfl := Option.some.inj hsome
  by_cases hvw : v = w
  · subst hvw
    rw [copyAssign, if_pos rfl, ← hys, Function.update_eq_self]
    exact .of_returns (returns_pure () s) hrefines.follows_self
  · obtain ⟨data', cells', hopened'⟩ := hrefines.opened w ys hys
    refine (hopened.turns_copyAssign hopened' hvw
      (hrefines.apart_own hopened' hys (Ne.symm hvw))).mono fun _ s' hleads => ?_
    exact hleads.follows hrefines fun hkeeps htidy => ⟨htidy.clean v xs hxs, hkeeps⟩

/-- `insert` is `emplace`. -/
theorem turns_insertion (hrefines : Refines s lists) {value : Value ι α}
    (happly : (Op.emplace v p value).apply lists = some lists') :
    Turns (Op.emplace v p value).call s (Outcome s lists P lists' (some (v, p))) := by
  obtain ⟨x, hx, hlists⟩ := Option.bind_eq_some_iff.mp happly
  obtain ⟨arg, hpass, harg⟩ := hrefines.returns_pass hx
  obtain ⟨xs, ys, cells, hxs, hys, rfl, hopened⟩ := hrefines.changed hlists
  obtain ⟨hp, rfl⟩ := inserted_eq_some hys
  refine hrefines.turns_inserts hxs (.after hpass (.after (returns_self rfl) ?_))
  rw [own_some hxs] at hopened harg ⊢
  exact hopened.turns_emplace hp harg

/-- A valid operation returns, or is refused an allocation, and does to the vectors what it
does to the lists. -/
theorem call_turns {op : Op ι α} (hrefines : Refines s lists) (happly : op.apply lists = some lists') :
    Turns op.call s (Outcome s lists (¬ op.Overwrites s) lists' (op.position lists)) := by
  cases op with
  | create v alloc =>
      exact hrefines.turns_created happly (.of_returns (returns_update rfl _) (leads_null alloc))
  | createFilled v n value alloc =>
      obtain ⟨x, hx, hlists⟩ := Option.bind_eq_some_iff.mp happly
      obtain ⟨arg, hpass, harg⟩ := hrefines.returns_pass hx
      rw [own_none (created_eq_some hlists).1] at harg
      exact hrefines.turns_created hlists (.after hpass (turns_createFilled v n alloc harg))
  | createFrom v init alloc => exact hrefines.turns_created happly (turns_createFrom v init alloc)
  | copyConstruct v w =>
      obtain ⟨ys, hys, hlists⟩ := Option.bind_eq_some_iff.mp happly
      obtain ⟨cells, hopened⟩ := hrefines.opened_own hys
      exact hrefines.turns_created hlists (turns_copyConstruct v hopened)
  | moveConstruct v w =>
      obtain ⟨ys, hys, hlists⟩ := Option.bind_eq_some_iff.mp happly
      obtain ⟨hnone, rfl⟩ := created_eq_some hlists
      have hv : lists v = none := by
        by_cases hvw : v = w
        · rw [hvw, Function.update_self] at hnone
          cases hnone
        · rwa [Function.update_of_ne hvw] at hnone
      exact turns_silent (turns_moveConstruct hrefines hv hys)
  | destroy v =>
      obtain ⟨xs, hxs, hlists⟩ := Option.bind_eq_some_iff.mp happly
      obtain rfl := Option.some.inj hlists
      exact turns_silent (turns_destroy hrefines hxs)
  | copyAssign v w => exact turns_silent (turns_assign hrefines happly)
  | moveAssign v w =>
      simp only [Op.apply, Option.bind_eq_bind, Option.bind_eq_some_iff] at happly
      obtain ⟨xs, hxs, ys, hys, hlists⟩ := happly
      obtain rfl := Option.some.inj hlists
      exact turns_silent (turns_moveAssign hrefines hxs hys)
  | swap v w =>
      simp only [Op.apply, Option.bind_eq_bind, Option.bind_eq_some_iff] at happly
      obtain ⟨xs, hxs, ys, hys, hlists⟩ := happly
      obtain rfl := Option.some.inj hlists
      exact turns_silent (turns_swap hrefines hxs hys)
  | pushBack v value =>
      obtain ⟨x, hx, hlists⟩ := Option.bind_eq_some_iff.mp happly
      obtain ⟨arg, hpass, harg⟩ := hrefines.returns_pass hx
      refine hrefines.turns_changed hlists fun xs ys cells hys hopened => ?_
      obtain rfl := Option.some.inj hys
      exact .after hpass (hopened.turns_pushBack harg)
  | emplaceBack v value =>
      obtain ⟨x, hx, hlists⟩ := Option.bind_eq_some_iff.mp happly
      obtain ⟨arg, hpass, harg⟩ := hrefines.returns_pass hx
      obtain ⟨xs, ys, cells, hxs, hys, rfl, hopened⟩ := hrefines.changed hlists
      obtain rfl := Option.some.inj hys
      rw [Op.position, hxs]
      exact hrefines.turns_inserts hxs (.after hpass (hopened.turns_emplaceBack harg))
  | emplace v pos value => exact turns_insertion hrefines happly
  | insert v pos value => exact turns_insertion hrefines happly
  | erase v pos =>
      refine hrefines.turns_placed happly fun xs ys cells _ hys hopened => ?_
      split_ifs at hys with hpos
      obtain rfl := Option.some.inj hys
      obtain ⟨s', herase, hinserts⟩ := hopened.erase_leads hpos
      exact .of_returns herase hinserts
  | eraseRange v first last =>
      refine hrefines.turns_placed happly fun xs ys cells _ hys hopened => ?_
      split_ifs at hys with hpos
      obtain rfl := Option.some.inj hys
      obtain ⟨count, rfl⟩ := Nat.exists_eq_add_of_le hpos.1
      obtain ⟨s', herase, hinserts⟩ := hopened.eraseRange_leads hpos.2
      exact .of_returns herase hinserts
  | popBack v =>
      refine hrefines.turns_changed happly fun xs ys cells hys hopened => ?_
      obtain rfl := Option.some.inj hys
      obtain ⟨s', hpop, hleads⟩ := hopened.popBack_leads
      exact .of_returns hpop hleads
  | resize v n value =>
      obtain ⟨x, hx, hlists⟩ := Option.bind_eq_some_iff.mp happly
      obtain ⟨arg, hpass, harg⟩ := hrefines.returns_pass hx
      refine hrefines.turns_changed hlists fun xs ys cells hys hopened => ?_
      obtain rfl := Option.some.inj hys
      exact .after hpass (hopened.turns_resize n harg)
  | reserve v n =>
      refine hrefines.turns_changed happly fun xs ys cells hys hopened => ?_
      obtain rfl := Option.some.inj hys
      exact (hopened.turns_reserve n).mono fun _ _ hroomy => hroomy.1
  | shrinkToFit v =>
      refine hrefines.turns_changed happly fun xs ys cells hys hopened => ?_
      obtain rfl := Option.some.inj hys
      exact hopened.turns_shrinkToFit
  | clear v =>
      refine hrefines.turns_changed happly fun xs ys cells hys hopened => ?_
      obtain rfl := Option.some.inj hys
      obtain ⟨s', hclear, hleads⟩ := hopened.clear_leads
      exact .of_returns hclear hleads

/-! ## Runs -/

/-- The vectors of a program beside the lists they stand for, and the position that the last
operation returned beside the place it should denote.  There is no store once an operation
has had no outcome. -/
structure Session (ι α : Type) where
  store : Option (Store ι α)
  lists : ι → Option (List α)
  returned : Option Iterator
  place : Option (ι × ℕ)

/-- What an operation leads to, unless an allocation fails. -/
def Session.next (session : Session ι α) (op : Op ι α) (lists : ι → Option (List α)) :
    Option (Session ι α) :=
  match session.store.bind op.call.run.run with
  | some (.ok pos, s) => some ⟨some s, lists, pos, op.position session.lists⟩
  | some (.error _, _) => none
  | none => some ⟨none, lists, none, none⟩

/-- No vectors and no buffers, with any allocator. -/
def start (traits : AllocatorTraits) (refuses : ℕ → Bool) : Session ι α where
  store := some ⟨.empty, fun _ => ⟨0, none, 0, 0⟩, traits, refuses, 0⟩
  lists := fun _ => none
  returned := none
  place := none

/-- Valid operations that are not refused an allocation, in any order. -/
def operations : TransitionSystem (Session ι α) (Op ι α) where
  initial session := ∃ traits refuses, session = start traits refuses
  step session op := (op.apply session.lists).bind (session.next op)

/-- The size is within the capacity, the buffer has as many slots as the capacity says, and
its first slots are the list. -/
structure Represents (heap : ArrayHeap (Slot α)) (this : CppVector) (xs : List α) : Prop where
  size_le : this.size ≤ this.capacity
  slots : ∃ cells, heap.cellsAt this.data = some cells ∧ cells.length = this.capacity ∧
    cells.take this.size = xs.map .full

/-- Nothing has gone wrong, every vector represents its list, and what was returned is the
position it should be. -/
def Session.Faithful (session : Session ι α) : Prop :=
  ∃ s, session.store = some s ∧
    (∀ v xs, session.lists v = some xs → Represents s.heap (s.vectors v) xs) ∧
    session.returned = session.place.map fun at' => ⟨(s.vectors at'.1).data, at'.2⟩

omit [DecidableEq ι] in
theorem start_refines (traits : AllocatorTraits) (refuses : ℕ → Bool) :
    Refines (⟨.empty, fun _ => ⟨0, none, 0, 0⟩, traits, refuses, 0⟩ : Store ι α) fun _ => none where
  opened v xs hxs := by cases hxs
  separate v w xs ys addr _ hxs := by cases hxs

omit [DecidableEq ι] in
theorem Refines.represents (hrefines : Refines s lists) (hxs : lists v = some xs) :
    Represents s.heap (s.vectors v) xs := by
  obtain ⟨data, cells, hopened⟩ := hrefines.opened v xs hxs
  rw [hopened.vector]
  refine ⟨hopened.fits, cells, hopened.buffer, rfl, ?_⟩
  rw [← List.length_map (Slot.full : α → Slot α)]
  exact (List.prefix_iff_eq_take.mp hopened.front).symm

end CppVector

end CppProjects
