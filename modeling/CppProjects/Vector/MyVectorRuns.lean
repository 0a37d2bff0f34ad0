import CppProjects.Vector.MyVectorSequence

/-!
# Runs of `myVector` operations

Any number of vectors, and any sequence of valid operations on them, beside the
lists they stand for.  The vectors go on representing the lists as long as no
`swap` takes over a capacity that an `int` cannot hold.
-/

namespace CppProjects

open CInt Program

namespace MyVector

variable {ι α : Type} [DecidableEq ι]

/-- A value given to an operation: one of the program's own, or an element of a
vector. -/
inductive Value (ι α : Type)
  | const (value : α)
  | element (w : ι) (index : ℕ)
deriving DecidableEq, Repr

/-- The operations, with positions counted from `begin()`. -/
inductive Op (ι α : Type)
  | pushBack (v : ι) (value : Value ι α)
  | popBack (v : ι)
  | assign (v : ι) (n : ℤ) (value : Value ι α)
  | resize (v : ι) (n : ℤ) (value : Value ι α)
  | reserve (v : ι) (n : ℤ)
  | insert (v : ι) (pos : ℕ) (n : ℤ) (value : Value ι α)
  | erase (v : ι) (pos : ℕ)
  | clear (v : ι)
  | swap (v w : ι)
deriving DecidableEq, Repr

omit [DecidableEq ι] in
/-- The reference that is passed for a value. -/
def Value.pass : Value ι α → M ι α (Arg α)
  | .const value => pure (.temp value)
  | .element w index => do
      let that ← self w
      return .slot that.mData index

/-- An operation as the program calls it. -/
def Op.call : Op ι α → M ι α Unit
  | .pushBack v value => do
      let arg ← value.pass
      MyVector.pushBack v arg
  | .popBack v => MyVector.popBack v
  | .assign v n value => do
      let arg ← value.pass
      MyVector.assign v n arg
  | .resize v n value => do
      let arg ← value.pass
      MyVector.resize v n arg
  | .reserve v n => MyVector.reserve v n
  | .insert v pos n value => do
      let this ← self v
      let arg ← value.pass
      let _ ← MyVector.insert v ⟨this.mData, pos⟩ n arg
  | .erase v pos => do
      let this ← self v
      let _ ← MyVector.erase v ⟨this.mData, pos⟩
  | .clear v => MyVector.clear v
  | .swap v w => MyVector.swap v w

/-! ## Lists -/

/-- The value a list operation on `v` uses; elements of `v` itself are not
allowed. -/
def Value.denote (lists : ι → List α) (v : ι) : Value ι α → Option α
  | .const value => some value
  | .element w index => if w = v then none else (lists w)[index]?

/-- The lists with another one for `v`, if its length fits an `int`. -/
def withList (lists : ι → List α) (v : ι) (xs : List α) : Option (ι → List α) :=
  if xs.length < 2 ^ 31 then some (Function.update lists v xs) else none

/-- A count, which has to be an `int` and must not be negative. -/
def count (n : ℤ) : Option ℕ := if 0 ≤ n ∧ n < 2 ^ 31 then some n.toNat else none

/-- The lists after an operation, if it is a valid one. -/
def Op.apply (lists : ι → List α) : Op ι α → Option (ι → List α)
  | .pushBack v value => do
      let x ← value.denote lists v
      withList lists v (lists v ++ [x])
  | .popBack v => withList lists v (lists v).dropLast
  | .assign v n value => do
      let n ← count n
      let x ← value.denote lists v
      withList lists v (List.replicate n x)
  | .resize v n value => do
      let n ← count n
      let x ← value.denote lists v
      withList lists v (padded (lists v) n x)
  | .reserve _ n => do
      let _ ← count n
      return lists
  | .insert v pos n value => do
      let n ← count n
      let x ← value.denote lists v
      if pos ≤ (lists v).length then
        withList lists v (spliced (lists v) pos (List.replicate n x))
      else none
  | .erase v pos =>
      if pos < (lists v).length then withList lists v ((lists v).eraseIdx pos) else none
  | .clear v => withList lists v []
  | .swap v w => some (Function.update (Function.update lists w (lists v)) v (lists w))

/-! ## Steps -/

variable {s : Store ι α} {lists lists' : ι → List α} {v w : ι} {x : α}

theorem Refines.returns_pass (hrefines : Refines s lists) {value : Value ι α}
    (hvalue : value.denote lists v = some x) :
    ∃ arg, Returns value.pass s arg s ∧ Arg.Denotes s.heap (s.vectors v).mData x arg := by
  cases value with
  | const given =>
      obtain rfl : given = x := Option.some.inj hvalue
      exact ⟨.temp given, returns_pure _ s, .temp⟩
  | element w index =>
      rw [Value.denote] at hvalue
      split_ifs at hvalue with hself
      obtain ⟨data, cells, hopened⟩ := hrefines.opened w
      refine ⟨.slot data index, (returns_self hopened.vector).bind (returns_pure _ s), ?_⟩
      have hget : cells[index]? = some (some x) := by
        have hlt : index < (lists w).length := (List.getElem?_eq_some_iff.mp hvalue).1
        rw [← List.getElem?_take_of_lt hlt, hopened.elements, List.getElem?_map, hvalue]
        rfl
      have hdata : (s.vectors w).mData = data := by rw [hopened.vector]
      have hbuffer := hopened.buffer
      cases data with
      | none =>
          obtain rfl : [] = cells := Option.some.inj hbuffer
          simp at hget
      | some addr =>
          exact .slot (hrefines.separate w v addr hself hdata) hbuffer hget

/-! ### Swapping -/

/-- A `swap` that takes over a capacity no `int` can hold. -/
def Narrows (s : Store ι α) (op : Op ι α) : Prop :=
  ∃ v w, op = .swap v w ∧ v ≠ w ∧ 2 ^ 31 ≤ (s.vectors w).mCapacity

/-- What `swap` does to two different vectors. -/
theorem returns_swap (hne : v ≠ w) (s : Store ι α) :
    Returns (MyVector.swap v w) s () ((s.withVector w (s.vectors v)).withVector v
      ⟨(s.vectors w).mData, toSize (toInt (s.vectors w).mSize),
        toSize (toInt (s.vectors w).mCapacity)⟩) := by
  rw [MyVector.swap, if_neg hne]
  refine (returns_self rfl).bind ((returns_self rfl).bind ((returns_update rfl _).bind ?_))
  exact returns_update rfl _

omit [DecidableEq ι] in
theorem Refines.permute (hrefines : Refines s lists) (names : Equiv.Perm ι) :
    Refines { s with vectors := s.vectors ∘ names } (lists ∘ names) where
  holds := fun u => hrefines.holds (names u)
  separate := by
    intro u u' addr hne
    exact hrefines.separate _ _ addr fun heq => hne (names.injective heq)
  memory := hrefines.memory

/-- A capacity below `2^31` survives the conversions. -/
theorem swap_refines (hrefines : Refines s lists)
    (hfits : v ≠ w → (s.vectors w).mCapacity < 2 ^ 31) :
    ∃ s', Returns (MyVector.swap v w) s () s' ∧
      Refines s' (Function.update (Function.update lists w (lists v)) v (lists w)) := by
  by_cases hne : v = w
  · subst hne
    refine ⟨s, ?_, ?_⟩
    · rw [MyVector.swap, if_pos rfl]
      exact returns_pure () s
    · rwa [Function.update_idem, Function.update_eq_self]
  · have hswap := returns_swap hne s
    have hsize : (s.vectors w).mSize < 2 ^ 31 := by
      rw [(hrefines.holds w).size]
      exact (hrefines.holds w).small
    rw [toInt_natCast_small hsize, toInt_natCast_small (hfits hne), toSize_natCast_small hsize,
      toSize_natCast_small (hfits hne)] at hswap
    refine ⟨_, hswap, ?_⟩
    have hpermuted := hrefines.permute (Equiv.swap v w)
    rwa [Equiv.comp_swap_eq_update, Equiv.comp_swap_eq_update] at hpermuted

/-! ### One operation -/

theorem withList_eq_some {xs : List α} (happly : withList lists v xs = some lists') :
    xs.length < 2 ^ 31 ∧ Function.update lists v xs = lists' := by
  rw [withList] at happly
  split_ifs at happly with hsmall
  exact ⟨hsmall, Option.some.inj happly⟩

omit [DecidableEq ι] in
theorem count_eq_some {n : ℤ} {m : ℕ} (hcount : count n = some m) : n = m ∧ m < 2 ^ 31 := by
  rw [count] at hcount
  split_ifs at hcount with hbounds
  obtain rfl := Option.some.inj hcount
  omega

/-- The vector that an operation is called on. -/
def Op.target : Op ι α → ι
  | .pushBack v _ | .popBack v | .assign v _ _ | .resize v _ _ | .reserve v _ | .insert v _ _ _
  | .erase v _ | .clear v | .swap v _ => v

/-- A valid operation on one vector returns, and does to it what it does to its
list. -/
theorem call_leads {op : Op ι α} (hrefines : Refines s lists)
    (happly : op.apply lists = some lists') (hswap : ∀ v w, op ≠ .swap v w) :
    ∃ xs s', lists' = Function.update lists op.target xs ∧ Returns op.call s () s' ∧
      Leads s lists op.target xs s' := by
  cases op with
  | pushBack v value =>
      simp only [Op.apply, Option.bind_eq_bind, Option.bind_eq_some_iff] at happly
      obtain ⟨x, hx, happly⟩ := happly
      obtain ⟨hsmall, rfl⟩ := withList_eq_some happly
      obtain ⟨arg, hpass, harg⟩ := hrefines.returns_pass hx
      obtain ⟨s', hcall, hleads⟩ := pushBack_leads hrefines harg hsmall
      exact ⟨_, s', rfl, hpass.bind hcall, hleads⟩
  | popBack v =>
      obtain ⟨-, rfl⟩ := withList_eq_some happly
      obtain ⟨s', hcall, hleads⟩ := popBack_leads hrefines v
      exact ⟨_, s', rfl, hcall, hleads⟩
  | assign v n value =>
      simp only [Op.apply, Option.bind_eq_bind, Option.bind_eq_some_iff] at happly
      obtain ⟨m, hm, x, hx, happly⟩ := happly
      obtain ⟨rfl, hsmall⟩ := count_eq_some hm
      obtain ⟨-, rfl⟩ := withList_eq_some happly
      obtain ⟨arg, hpass, harg⟩ := hrefines.returns_pass hx
      obtain ⟨s', hcall, hleads⟩ := assign_leads hrefines harg hsmall
      exact ⟨_, s', rfl, hpass.bind hcall, hleads⟩
  | resize v n value =>
      simp only [Op.apply, Option.bind_eq_bind, Option.bind_eq_some_iff] at happly
      obtain ⟨m, hm, x, hx, happly⟩ := happly
      obtain ⟨rfl, hsmall⟩ := count_eq_some hm
      obtain ⟨-, rfl⟩ := withList_eq_some happly
      obtain ⟨arg, hpass, harg⟩ := hrefines.returns_pass hx
      obtain ⟨s', hcall, hleads⟩ := resize_leads hrefines harg hsmall
      exact ⟨_, s', rfl, hpass.bind hcall, hleads⟩
  | reserve v n =>
      simp only [Op.apply, Option.bind_eq_bind, Option.bind_eq_some_iff] at happly
      obtain ⟨m, hm, happly⟩ := happly
      obtain ⟨rfl, hsmall⟩ := count_eq_some hm
      obtain rfl := Option.some.inj happly
      obtain ⟨s', hcall, hleads⟩ := reserve_leads hrefines v hsmall
      exact ⟨_, s', (Function.update_eq_self _ _).symm, hcall, hleads⟩
  | insert v pos n value =>
      simp only [Op.apply, Option.bind_eq_bind, Option.bind_eq_some_iff] at happly
      obtain ⟨m, hm, x, hx, happly⟩ := happly
      split_ifs at happly with hpos
      obtain ⟨rfl, -⟩ := count_eq_some hm
      obtain ⟨hsmall, rfl⟩ := withList_eq_some happly
      rw [length_spliced, List.length_replicate] at hsmall
      obtain ⟨arg, hpass, harg⟩ := hrefines.returns_pass hx
      obtain ⟨s', hcall, hleads⟩ := insert_leads hrefines harg hpos hsmall
      exact ⟨_, s', rfl,
        (returns_self rfl).bind (hpass.bind (hcall.bind (returns_pure () s'))), hleads⟩
  | erase v pos =>
      rw [Op.apply] at happly
      split_ifs at happly with hpos
      obtain ⟨-, rfl⟩ := withList_eq_some happly
      obtain ⟨s', hcall, hleads⟩ := erase_leads hrefines hpos
      exact ⟨_, s', rfl, (returns_self rfl).bind (hcall.bind (returns_pure () s')), hleads⟩
  | clear v =>
      obtain ⟨-, rfl⟩ := withList_eq_some happly
      obtain ⟨s', hcall, hleads⟩ := clear_leads hrefines v
      exact ⟨_, s', rfl, hcall, hleads⟩
  | swap v w => exact absurd rfl (hswap v w)

/-- Every valid operation returns and does to the vectors what it does to the
lists, unless it is a `swap` that narrows a capacity. -/
theorem call_refines {op : Op ι α} (hrefines : Refines s lists)
    (happly : op.apply lists = some lists') (hwide : ¬ Narrows s op) :
    ∃ s', Returns op.call s () s' ∧ Refines s' lists' := by
  by_cases hswap : ∃ v w, op = .swap v w
  · obtain ⟨v, w, rfl⟩ := hswap
    obtain rfl := Option.some.inj happly
    refine swap_refines hrefines fun hne => ?_
    by_contra hlarge
    exact hwide ⟨v, w, rfl, hne, by omega⟩
  · obtain ⟨xs, s', rfl, hcall, hleads⟩ := call_leads hrefines happly
      fun v w heq => hswap ⟨v, w, heq⟩
    exact ⟨s', hcall, hleads.refines⟩

/-! ## Runs -/

/-- The vectors of a program beside the lists they stand for.  There is no store
once an operation has had no outcome or has thrown. -/
structure Session (ι α : Type) where
  store : Option (Store ι α)
  lists : ι → List α

/-- The store an operation leads to when it returns. -/
def Op.result (op : Op ι α) (s : Store ι α) : Option (Store ι α) :=
  match op.call.run.run s with
  | some (.ok _, s') => some s'
  | some (.error _, _) | none => none

/-- Empty vectors, and memory enough. -/
def start : Session ι α where
  store := some ⟨.empty, fun _ => ⟨none, 0, 0⟩, fun _ => false⟩
  lists := fun _ => []

/-- Valid operations, in any order. -/
def operations : TransitionSystem (Session ι α) (Op ι α) where
  initial session := session = start
  step session op :=
    (op.apply session.lists).map fun lists => ⟨session.store.bind op.result, lists⟩

/-- The size is within the capacity, the buffer has as many slots as the
capacity says, and its first slots are the list. -/
structure Represents (heap : ArrayHeap (Option α)) (this : MyVector) (xs : List α) : Prop where
  size_le : this.mSize ≤ this.mCapacity
  slots : ∃ cells, heap.cellsAt this.mData = some cells ∧ cells.length = this.mCapacity ∧
    cells.take this.mSize = xs.map some

/-- Nothing has gone wrong, and every vector represents its list. -/
def Session.Faithful (session : Session ι α) : Prop :=
  ∃ s, session.store = some s ∧ ∀ v, Represents s.heap (s.vectors v) (session.lists v)

def Session.Narrows (session : Session ι α) (op : Op ι α) : Prop :=
  ∃ s, session.store = some s ∧ MyVector.Narrows s op

omit [DecidableEq ι] in
theorem start_refines :
    Refines (⟨.empty, fun _ => ⟨none, 0, 0⟩, fun _ => false⟩ : Store ι α) fun _ => [] where
  holds := fun _ => ⟨rfl, by simp, by simp, [], rfl, rfl, List.nil_prefix⟩
  separate := by
    intro v w addr _ hdata
    cases hdata
  memory := fun _ => rfl

omit [DecidableEq ι] in
theorem Refines.represents (hrefines : Refines s lists) (v : ι) :
    Represents s.heap (s.vectors v) (lists v) := by
  obtain ⟨data, cells, hopened⟩ := hrefines.opened v
  rw [hopened.vector]
  exact ⟨hopened.fits, cells, hopened.buffer, rfl, hopened.elements⟩

theorem result_of_returns {op : Op ι α} {s' : Store ι α} (hcall : Returns op.call s () s') :
    op.result s = some s' := by
  rw [Op.result, hcall]

/-- A capacity from `2^31` on comes out of `swap` as a number that is not the
length of the buffer. -/
theorem not_represents_of_narrows (hrefines : Refines s lists) {op : Op ι α}
    (hnarrows : Narrows s op) {s' : Store ι α} (hresult : op.result s = some s')
    (hall : ∀ v, Represents s'.heap (s'.vectors v) (lists' v)) : False := by
  obtain ⟨v, w, rfl, hne, hlarge⟩ := hnarrows
  have hcall : Returns (Op.swap v w).call s () _ := returns_swap hne s
  rw [result_of_returns hcall] at hresult
  obtain rfl := Option.some.inj hresult
  obtain ⟨-, cells, hcells, hlength, -⟩ := hall v
  rw [Store.vectors_withVector] at hcells hlength
  obtain ⟨-, -, hcapacity, buffer, hbuffer, hwidth, -⟩ := hrefines.holds w
  obtain rfl : buffer = cells := Option.some.inj (hbuffer.symm.trans hcells)
  have hneg : toInt (s.vectors w).mCapacity = (s.vectors w).mCapacity - 2 ^ 32 := by
    rw [toInt, ← Int.sub_bmod_right]
    exact Int.bmod_eq_of_le (by omega) (by omega)
  rw [hneg] at hlength
  have hhuge : 2 ^ 63 ≤ toSize (((s.vectors w).mCapacity : ℤ) - 2 ^ 32) :=
    toSize_of_neg (by omega) (by omega)
  dsimp only at hlength
  omega

/-- The runs in which every vector represents its list throughout are those in
which no `swap` takes over a capacity from `2^31` on. -/
theorem represents_lists_iff {visited : List (Session ι α × Op ι α)} {session : Session ι α}
    (hrun : operations.Run visited session) :
    ((∀ before ∈ visited, before.1.Faithful) ∧ session.Faithful) ↔
      ∀ taken ∈ visited, ¬ taken.1.Narrows taken.2 := by
  refine hrun.forall_iff (P := Session.Faithful)
    (Q := fun session => ∃ s, session.store = some s ∧ Refines s session.lists) ?_ ?_ ?_ ?_
  · rintro session ⟨s, hstore, hrefines⟩
    exact ⟨s, hstore, hrefines.represents⟩
  · rintro _ rfl
    exact ⟨_, rfl, start_refines⟩
  · rintro session op session' ⟨s, hstore, hrefines⟩ hstep hwide
    obtain ⟨lists, happly, rfl⟩ := Option.map_eq_some_iff.mp hstep
    obtain ⟨s', hcall, hrefines'⟩ := call_refines hrefines happly
      fun hnarrows => hwide ⟨s, hstore, hnarrows⟩
    refine ⟨s', ?_, hrefines'⟩
    dsimp only
    rw [hstore, Option.bind_some, result_of_returns hcall]
  · rintro session op session' ⟨s, hstore, hrefines⟩ hstep ⟨s₁, hstore', hnarrows⟩
    rintro ⟨s', hfinal, hall⟩
    obtain ⟨lists, happly, rfl⟩ := Option.map_eq_some_iff.mp hstep
    obtain rfl : s = s₁ := Option.some.inj (hstore.symm.trans hstore')
    dsimp only at hfinal
    rw [hstore, Option.bind_some] at hfinal
    exact not_represents_of_narrows hrefines hnarrows hfinal hall

/-- A run of one `push_back`, which narrows nothing. -/
theorem represents_lists_iff_pushBack :
    ∃ session : Session Bool ℕ, operations.Run [(start, .pushBack true (.const 5))] session ∧
      session.Faithful ∧ session.lists true = [5] := by
  have hrun : operations.Run [(start, Op.pushBack true (.const 5))]
      ⟨_, Function.update (fun _ : Bool => ([] : List ℕ)) true [5]⟩ :=
    .step (.initial rfl) rfl
  have hwide : ∀ taken ∈ [((start : Session Bool ℕ), Op.pushBack true (.const 5))],
      ¬ taken.1.Narrows taken.2 := by
    intro taken hmem
    obtain rfl := List.mem_singleton.mp hmem
    rintro ⟨s, -, v, w, hswap, -⟩
    cases hswap
  exact ⟨_, hrun, ((represents_lists_iff hrun).mpr hwide).2, rfl⟩

/-- A first `reserve` doubles from zero up to what is needed. -/
theorem reserve_start (v : ι) {n grown : ℕ} (hsmall : n < 2 ^ 31)
    (hgrown : growTo n (2 ^ 64 + 1) 0 = some grown) :
    ∃ s : Store ι α, start.store.bind (Op.reserve v n).result = some s ∧
      Refines s (fun _ => []) ∧ (s.vectors v).mCapacity = grown := by
  obtain ⟨data, cells, hopened⟩ := start_refines.opened (ι := ι) (α := α) v
  have hempty : 0 = cells.length := congrArg MyVector.mCapacity hopened.vector
  rw [hempty] at hgrown
  have hmoved := returns_reserve start_refines hopened hsmall (by omega) hgrown (by omega)
  obtain ⟨s, hreserve, hleads⟩ := reserve_leads (start_refines (α := α)) v hsmall
  have hrefines := hleads.refines
  rw [Function.update_eq_self] at hrefines
  refine ⟨s, result_of_returns hreserve, hrefines, ?_⟩
  rw [(hreserve.unique hmoved).2, vectors_moved]

theorem growTo_large : growTo (2 ^ 30 + 1) (2 ^ 64 + 1) 0 = some (2 ^ 31) := by
  decide +kernel

/-- Two empty vectors: the first reserves room for more than `2^30` elements, and
the second is swapped with it. -/
theorem not_represents_lists :
    ¬ ∀ (visited : List (Session Bool ℕ × Op Bool ℕ)) (session : Session Bool ℕ),
      operations.Run visited session → session.Faithful := by
  intro hall
  have hsmall : 2 ^ 30 + 1 < 2 ^ 31 := by decide
  obtain ⟨s, hreserve, hrefines, hcapacity⟩ := reserve_start (α := ℕ) false hsmall growTo_large
  have hcount : count ((2 ^ 30 + 1 : ℕ) : ℤ) = some (2 ^ 30 + 1) := by decide
  have hfirst : operations.step start (Op.reserve false ((2 ^ 30 + 1 : ℕ) : ℤ)) =
      some ⟨some s, fun _ => []⟩ := by
    simp only [operations, Op.apply, hcount, hreserve, Option.bind_eq_bind, Option.bind_some,
      Option.pure_def, Option.map_some]
    rfl
  have hsecond : operations.step ⟨some s, fun _ => []⟩ (Op.swap true false) =
      some ⟨(Op.swap true false).result s, _⟩ := rfl
  obtain ⟨s', hresult, hrepresents⟩ :=
    hall _ _ (((TransitionSystem.Run.initial rfl).step hfirst).step hsecond)
  exact not_represents_of_narrows hrefines ⟨true, false, rfl, by decide, hcapacity.ge⟩
    hresult hrepresents

end MyVector

end CppProjects
