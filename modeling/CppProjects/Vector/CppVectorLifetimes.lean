import CppProjects.Vector.CppVectorAliasing
import CppProjects.Vector.CppVectorRefused
import CppProjects.Vector.CppVectorRuns

/-!
# Lifetimes of the objects in a `vector`

Runs of operations that may also be refused an allocation, and that may be given elements of
the vector they change.  Objects are constructed in raw slots and destroyed once, except
where a copy assignment keeps the buffer, or has released it when the allocation is refused.
-/

namespace CppProjects

open CInt Program

namespace CppVector

variable {ι α β : Type} {s s' : Store ι α} {lists lists' : ι → Option (List α)} {v w : ι}
  {xs ys : List α} {x : α} {data data' : Option ℕ} {cells cells' : List (Slot α)} {n p i : ℕ}
  {error : Failure} {value value' : Value ι α} {arg arg' : Arg α} {live : ι → Bool}

/-! ## Scopes -/

/-- The vectors that are there, with their buffers.  There is no store once an operation has
had no outcome: it destroyed a raw slot, or read or wrote what is no object. -/
structure Scope (ι α : Type) where
  store : Option (Store ι α)
  live : ι → Bool

/-- The buffer of a vector has as many slots as the capacity says, and exactly the first
`size` of them hold objects. -/
structure Filled (heap : ArrayHeap (Slot α)) (this : CppVector) : Prop where
  size_le : this.size ≤ this.capacity
  slots : ∃ cells, heap.cellsAt this.data = some cells ∧ cells.length = this.capacity ∧
    ∀ (i : ℕ) (hi : i < cells.length), cells[i].isRaw = false ↔ i < this.size

/-- No operation was undefined and no object lost, the vectors that are there are filled, and
when there are none no storage is left, and no object in it. -/
def Scope.Sound (scope : Scope ι α) : Prop :=
  ∃ s, scope.store = some s ∧ s.lost = 0 ∧
    (∀ v, scope.live v = true → Filled s.heap (s.vectors v)) ∧
    ((∀ v, scope.live v = false) → ∀ addr, s.heap.arrays addr = none)

/-- The value is there. -/
def Value.valid (s : Store ι α) (live : ι → Bool) : Value ι α → Bool
  | .const _ => true
  | .element w index => live w && decide (index < (s.vectors w).size)

/-- The vectors, values and positions that an operation needs are there. -/
def Op.valid (s : Store ι α) (live : ι → Bool) : Op ι α → Bool
  | .create v _ | .createFrom v _ _ => !live v
  | .createFilled v _ value _ => !live v && value.valid s live
  | .copyConstruct v w | .moveConstruct v w => !live v && live w
  | .destroy v | .popBack v | .reserve v _ | .shrinkToFit v | .clear v => live v
  | .copyAssign v w | .moveAssign v w | .swap v w => live v && live w
  | .pushBack v value | .emplaceBack v value | .resize v _ value => live v && value.valid s live
  | .emplace v pos value | .insert v pos value =>
      live v && value.valid s live && decide (pos ≤ (s.vectors v).size)
  | .erase v pos => live v && decide (pos < (s.vectors v).size)
  | .eraseRange v first last => live v && decide (first ≤ last ∧ last ≤ (s.vectors v).size)

variable [DecidableEq ι]

/-- The vectors that are there when an operation returns. -/
def Op.survivors (live : ι → Bool) : Op ι α → ι → Bool
  | .create v _ | .createFilled v _ _ _ | .createFrom v _ _ | .copyConstruct v _ | .moveConstruct v _ =>
      Function.update live v true
  | .destroy v => Function.update live v false
  | _ => live

/-- The scope an operation leaves, also by an exception. -/
def Scope.after (live : ι → Bool) (op : Op ι α) : Option (Except Failure (Option Iterator) × Store ι α) →
    Scope ι α
  | some (.ok _, s) => ⟨some s, op.survivors live⟩
  | some (.error _, s) => ⟨some s, live⟩
  | none => ⟨none, live⟩

/-- The buffer of `v` is released before the new one is refused. -/
def Releases (s : Store ι α) (v w : ι) : Prop :=
  v ≠ w ∧ ¬ Takes s v w ∧ (s.vectors v).capacity < (s.vectors w).size ∧ (s.vectors v).data ≠ none ∧
    ¬ s.Grants (s.vectors w).size

/-- A copy assignment that loses the buffer. -/
def Op.Releases (s : Store ι α) : Op ι α → Prop
  | .copyAssign v w => CppVector.Releases s v w
  | _ => False

/-- A new buffer for one more element. -/
def Regrows (s : Store ι α) (v : ι) : Prop :=
  (s.vectors v).capacity ≤ (s.vectors v).size ∧ s.Grants (doubled (s.vectors v).capacity)

/-- An element of the vector is read when the buffer it was in is gone, or it is destroyed. -/
def Op.Misreads (s : Store ι α) : Op ι α → Prop
  | .pushBack v (.element w _) | .emplaceBack v (.element w _) => w = v ∧ Regrows s v
  | .emplace v pos (.element w index) | .insert v pos (.element w index) =>
      w = v ∧ (Regrows s v ∨ (s.vectors v).size < (s.vectors v).capacity ∧ pos = index)
  | .resize v n (.element w _) => w = v ∧ (s.vectors v).capacity < n ∧ s.Grants n
  | _ => False

/-- The operations that lose an object or a buffer, or read what is no object. -/
def Scope.Breaks (scope : Scope ι α) (op : Op ι α) : Prop :=
  ∃ s, scope.store = some s ∧ (op.Overwrites s ∨ op.Releases s ∨ op.Misreads s)

/-! ## Scopes that follow lists -/

/-- There is a list for each vector that is there, and it holds those elements and nothing
else. -/
structure Tracks (s : Store ι α) (lists : ι → Option (List α)) (live : ι → Bool) : Prop where
  refines : Refines s lists
  tidy : Tidy s lists
  live_eq : ∀ v, live v = (lists v).isSome

omit [DecidableEq ι] in
theorem Opened.filled (hopened : Opened s v xs data cells) (hclean : Clean s v) :
    Filled s.heap (s.vectors v) := by
  rw [hopened.vector]
  refine ⟨hopened.fits, cells, hopened.buffer, rfl, fun i hi => ?_⟩
  constructor
  · intro hobject
    by_contra hbehind
    have hle : xs.length ≤ i := Nat.not_lt.mp hbehind
    have hmem : cells[i] ∈ cells.drop xs.length := by
      rw [List.mem_drop_iff_getElem]
      exact ⟨i - xs.length, by omega, by congr 1; omega⟩
    have hnone := List.countP_eq_zero.mp (hopened.clean_iff.mp hclean) _ hmem
    rw [hobject] at hnone
    exact hnone rfl
  · intro hlt
    have hslot := hopened.getElem? (List.getElem?_eq_getElem hlt)
    rw [List.getElem?_eq_getElem hi] at hslot
    rw [Option.some.inj hslot]
    rfl

omit [DecidableEq ι] in
theorem Tracks.sound (htracks : Tracks s lists live) : Scope.Sound ⟨some s, live⟩ := by
  obtain ⟨hrefines, htidy, hlive⟩ := htracks
  refine ⟨s, rfl, htidy.lost, fun v hv => ?_, fun hnone addr => ?_⟩
  · obtain ⟨xs, hxs⟩ := Option.isSome_iff_exists.mp ((hlive v).symm.trans hv)
    obtain ⟨data, cells, hopened⟩ := hrefines.opened v xs hxs
    exact hopened.filled (htidy.clean v xs hxs)
  · by_contra hsome
    obtain ⟨v, xs, hxs, -⟩ := htidy.owned addr (Option.isSome_iff_ne_none.mpr hsome)
    have hv := (hlive v).symm.trans (hnone v)
    rw [hxs] at hv
    cases hv

omit [DecidableEq ι] in
theorem Tracks.exists_list (htracks : Tracks s lists live) (hv : live v = true) :
    ∃ xs, lists v = some xs := Option.isSome_iff_exists.mp ((htracks.live_eq v).symm.trans hv)

omit [DecidableEq ι] in
theorem Tracks.eq_none (htracks : Tracks s lists live) (hv : live v = false) : lists v = none :=
  Option.isNone_iff_eq_none.mp (Option.isSome_eq_false_iff.mp ((htracks.live_eq v).symm.trans hv))

omit [DecidableEq ι] in
theorem Refines.size_eq (hrefines : Refines s lists) (hxs : lists v = some xs) :
    (s.vectors v).size = xs.length := by
  obtain ⟨data, cells, hopened⟩ := hrefines.opened v xs hxs
  rw [hopened.vector]

omit [DecidableEq ι] in
/-- The value that a valid element has. -/
theorem Tracks.exists_element (htracks : Tracks s lists live)
    (hvalid : (Value.element w i : Value ι α).valid s live = true) :
    ∃ ys x, lists w = some ys ∧ ys[i]? = some x := by
  rw [Value.valid, Bool.and_eq_true, decide_eq_true_eq] at hvalid
  obtain ⟨ys, hys⟩ := htracks.exists_list hvalid.1
  rw [htracks.refines.size_eq hys] at hvalid
  exact ⟨ys, _, hys, List.getElem?_eq_getElem hvalid.2⟩

/-- A value is one that the lists allow, or an element of the vector that is changed. -/
theorem Tracks.denote_or_own (htracks : Tracks s lists live) (v : ι) (hvalid : value.valid s live = true) :
    (∃ x, value.denote lists v = some x) ∨
      ∃ i xs x, value = .element v i ∧ lists v = some xs ∧ xs[i]? = some x := by
  cases value with
  | const x => exact .inl ⟨x, rfl⟩
  | element w i =>
      obtain ⟨ys, x, hys, hget⟩ := htracks.exists_element hvalid
      by_cases hown : w = v
      · subst hown
        exact .inr ⟨i, ys, x, rfl, hys, hget⟩
      · refine .inl ⟨x, ?_⟩
        rw [Value.denote, if_neg hown, hys]
        exact hget

/-- No element of a vector that is not there is given. -/
theorem Tracks.denote_new (htracks : Tracks s lists live) (hv : live v = false)
    (hvalid : value.valid s live = true) : ∃ x, value.denote lists v = some x := by
  rcases htracks.denote_or_own v hvalid with hdenote | ⟨i, xs, x, -, hxs, -⟩
  · exact hdenote
  · rw [htracks.eq_none hv] at hxs
    cases hxs

/-! ## Elements of the vector as arguments -/

omit [DecidableEq ι] in
/-- Two values with whose references an operation does the same. -/
theorem sameRun_passed {next : Arg α → M ι α β} (hpass : Returns value.pass s arg s)
    (hpass' : Returns value'.pass s arg' s) (h : SameRun (next arg) (next arg') s) :
    SameRun (value.pass >>= next) (value'.pass >>= next) s :=
  hpass.sameRun_next.trans (h.trans hpass'.sameRun_next.symm)

omit [DecidableEq ι] in
theorem Opened.returns_assertWithin (hopened : Opened s v xs data cells) (hp : p ≤ xs.length) :
    Returns (assertWithin (s.vectors v) ⟨data, p⟩) s () s := by
  rw [hopened.vector, assertWithin, if_pos ⟨rfl, hp⟩]
  exact returns_pure () s

theorem Opened.sameRun_emplace (hopened : Opened s v xs data cells) (hp : p ≤ xs.length) (arg : Arg α) :
    SameRun (emplace v ⟨data, p⟩ arg) (if p = xs.length then emplaceBack v arg
      else do growIfFull v; insertElement v p arg) s := by
  have hsize : (s.vectors v).size = xs.length := by rw [hopened.vector]
  refine (returns_self rfl).sameRun_next.trans ((hopened.returns_assertWithin hp).sameRun_next.trans ?_)
  rw [hsize]
  exact .refl _ s

omit [DecidableEq ι] in
/-- Another element may stand where the argument did, unless it is the one that was moved
away from the gap. -/
theorem Opened.reads_opened (hopened : Opened s v xs data cells) (hp : p < xs.length)
    (hroom : xs.length < cells.length) (hget : xs[i]? = some x) (hother : p ≠ i) (lost : ℕ) :
    ∃ y, Returns (Arg.slot data i).get (s.withCells data (gapped cells xs p .raw) lost) y
      (s.withCells data (gapped cells xs p .raw) lost) := by
  have hlt := (List.getElem?_eq_some_iff.mp hget).1
  have hbuffer := Store.cellsAt_withCells s hopened.buffer (length_gapped hp.le hroom Slot.raw) lost
  have hslot := hopened.getElem?_opened hp.le hroom hget
  rcases lt_or_gt_of_ne hother with hbehind | hbefore
  · have hmoved : xs[i - 1]? = some xs[i - 1] := List.getElem?_eq_getElem (by omega)
    rw [if_neg (by omega), if_neg (by omega), hmoved, Option.map_some] at hslot
    exact ⟨_, returns_valueAt hbuffer hslot⟩
  · rw [if_pos hbefore] at hslot
    exact ⟨x, returns_valueAt hbuffer hslot⟩

/-- Where nothing is misread, the element could have been a copy of an element. -/
theorem Opened.emplace_own (hopened : Opened s v xs data cells) (hp : p ≤ xs.length)
    (hget : xs[i]? = some x)
    (hsafe : ¬ (Regrows s v ∨ (s.vectors v).size < (s.vectors v).capacity ∧ p = i)) :
    ∃ y, SameRun (emplace v ⟨data, p⟩ (.slot data i)) (emplace v ⟨data, p⟩ (.temp y)) s := by
  have hlt := (List.getElem?_eq_some_iff.mp hget).1
  rw [Regrows, hopened.vector, not_or, not_and, not_and] at hsafe
  obtain ⟨hkept, hother⟩ := hsafe
  have hwith : ∀ y, SameRun (if p = xs.length then emplaceBack v (.slot data i)
      else do growIfFull v; insertElement v p (.slot data i)) (if p = xs.length then
        emplaceBack v (.temp y) else do growIfFull v; insertElement v p (.temp y)) s →
      SameRun (emplace v ⟨data, p⟩ (.slot data i)) (emplace v ⟨data, p⟩ (.temp y)) s := fun y hsame =>
    (hopened.sameRun_emplace hp _).trans (hsame.trans (hopened.sameRun_emplace hp _).symm)
  by_cases hroom : xs.length < cells.length
  · by_cases hend : p = xs.length
    · refine ⟨x, hwith x ?_⟩
      rw [if_pos hend, if_pos hend]
      exact (hopened.emplaceBack_own hget (.inl hroom)).1
    · have hinside : p < xs.length := by omega
      obtain ⟨y, hread⟩ := hopened.reads_opened hinside hroom hget (hother hroom)
        (s.lost + objects [cells[xs.length]])
      refine ⟨y, hwith y ?_⟩
      rw [if_neg hend, if_neg hend, (hopened.returns_growIfFull_of_room hroom).sameRun_bind]
      exact (hopened.returns_insertElement hroom hinside hread).sameRun
        (hopened.returns_insertElement hroom hinside (returns_temp y _))
  · have hrefused := hkept (Nat.not_lt.mp hroom)
    refine ⟨x, hwith x ?_⟩
    split_ifs
    · exact (hopened.emplaceBack_own hget (.inr hrefused)).1
    · obtain ⟨error, hthrows⟩ := hopened.throws_growIfFull (Nat.not_lt.mp hroom) hrefused
      exact hthrows.sameRun_bind

theorem survivors_update (hlive : ∀ u, live u = (lists u).isSome) (v : ι) (zs : Option (List α)) (u : ι) :
    Function.update live v zs.isSome u = (Function.update lists v zs u).isSome := by
  by_cases hu : u = v
  · rw [hu, Function.update_self, Function.update_self]
  · rw [Function.update_of_ne hu, Function.update_of_ne hu, hlive u]

/-- The vector that is changed stays there. -/
theorem survivors_changed (hlive : ∀ u, live u = (lists u).isSome) (hv : live v = true) (ys : List α)
    (u : ι) : live u = (Function.update lists v (some ys) u).isSome := by
  rw [← survivors_update hlive, Option.isSome_some, ← hv, Function.update_eq_self]

/-- What an operation does, as one that the lists allow. -/
def Allowed (s : Store ι α) (lists : ι → Option (List α)) (live : ι → Bool) (op : Op ι α) : Prop :=
  ∃ (op' : Op ι α) (lists' : ι → Option (List α)), SameRun op.call op'.call s ∧
    op'.apply lists = some lists' ∧ (op'.Overwrites s → op.Overwrites s) ∧
    ∀ u, op.survivors live u = (lists' u).isSome

theorem allowed_self {op : Op ι α} (happly : op.apply lists = some lists')
    (hlive : ∀ u, op.survivors live u = (lists' u).isSome) : Allowed s lists live op :=
  ⟨op, lists', .refl _ s, happly, id, hlive⟩

theorem created_of_none (hnone : lists v = none) (xs : List α) :
    created lists v xs = some (Function.update lists v (some xs)) := by
  rw [created, if_pos (by rw [hnone]; rfl)]

theorem changed_of_some (hxs : lists v = some xs) {f : List α → Option (List α)} (hys : f xs = some ys) :
    changed lists v f = some (Function.update lists v (some ys)) := by
  rw [changed, hxs]
  change (f xs >>= fun ys => pure (Function.update lists v (some ys))) = _
  rw [hys]
  rfl

/-- Of the operations that change a vector and take no value. -/
theorem Tracks.allowed_changed {op : Op ι α} (htracks : Tracks s lists live) (hv : live v = true)
    (hxs : lists v = some xs) {f : List α → Option (List α)}
    (happly : op.apply lists = changed lists v f) (hys : f xs = some ys)
    (hsurvivors : op.survivors live = live) :
    Allowed s lists live op := by
  refine allowed_self (happly.trans (changed_of_some hxs hys)) fun u => ?_
  rw [hsurvivors]
  exact survivors_changed htracks.live_eq hv ys u

/-- Of those that take one. -/
theorem Tracks.allowed_given (htracks : Tracks s lists live) (hv : live v = true)
    (hxs : lists v = some xs) (hvalue : value.valid s live = true) (op : Value ι α → Op ι α)
    {f : α → List α → Option (List α)}
    (happly : ∀ value, (op value).apply lists = (value.denote lists v).bind fun x => changed lists v (f x))
    (hf : ∀ x, ∃ ys, f x xs = some ys)
    (hsurvivors : ∀ value, (op value).survivors live = live) (hkeeps : ∀ value, ¬ (op value).Overwrites s)
    (hown : ∀ i x, value = .element v i → xs[i]? = some x →
      ∃ y, SameRun (op (.element v i)).call (op (.const y)).call s) :
    Allowed s lists live (op value) := by
  have hlive : ∀ value ys u, (op value).survivors live u = (Function.update lists v (some ys) u).isSome := by
    intro value ys u
    rw [hsurvivors]
    exact survivors_changed htracks.live_eq hv ys u
  rcases htracks.denote_or_own v hvalue with ⟨x, hx⟩ | ⟨i, zs, x, rfl, hzs, hget⟩
  · obtain ⟨ys, hys⟩ := hf x
    refine allowed_self ?_ (hlive value ys)
    rw [happly, hx]
    exact changed_of_some hxs hys
  · obtain rfl := Option.some.inj (hxs.symm.trans hzs)
    obtain ⟨y, hsame⟩ := hown i x rfl hget
    obtain ⟨ys, hys⟩ := hf y
    refine ⟨op (.const y), _, hsame, ?_, fun hover => absurd hover (hkeeps _), hlive _ ys⟩
    rw [happly]
    exact changed_of_some hxs hys

/-- Of those that make a new vector. -/
theorem Tracks.allowed_created {op : Op ι α} (htracks : Tracks s lists live) (hv : live v = false)
    (xs : List α) (happly : op.apply lists = created lists v xs)
    (hsurvivors : op.survivors live = Function.update live v true) : Allowed s lists live op := by
  refine allowed_self (happly.trans (created_of_none (htracks.eq_none hv) xs)) fun u => ?_
  rw [hsurvivors]
  exact survivors_update htracks.live_eq v (some xs) u

omit [DecidableEq ι] in
theorem Tracks.opened_of_list (htracks : Tracks s lists live) (hxs : lists v = some xs) :
    ∃ cells, Opened s v xs (s.vectors v).data cells := by
  rw [← own_some hxs]
  exact htracks.refines.opened_own hxs

omit [DecidableEq ι] in
/-- The reference that is passed for an element of a vector. -/
theorem returns_pass_element (s : Store ι α) (v : ι) (i : ℕ) :
    Returns (Value.element v i).pass s (.slot (s.vectors v).data i) s :=
  (returns_self rfl).bind (returns_pure _ s)

omit [DecidableEq ι] in
/-- Both are given a reference, and read it alike. -/
theorem sameRun_given {y : α} {next : Arg α → M ι α β}
    (h : SameRun (next (.slot (s.vectors v).data i)) (next (.temp y)) s) :
    SameRun ((Value.element v i).pass >>= next) ((Value.const y).pass >>= next) s :=
  sameRun_passed (returns_pass_element s v i) (returns_pure _ s) h

omit [DecidableEq ι] in
theorem Opened.safe_of_not_regrows (hopened : Opened s v xs data cells) (hkeeps : ¬ Regrows s v) :
    xs.length < cells.length ∨ ¬ s.Grants (doubled cells.length) := by
  rw [Regrows, hopened.vector, not_and_or, Nat.not_le] at hkeeps
  exact hkeeps

/-- `insert` is `emplace`. -/
theorem Opened.sameRun_insertion (hopened : Opened s v xs (s.vectors v).data cells)
    (hp : p ≤ xs.length) (hget : xs[i]? = some x)
    (hsafe : ¬ (Regrows s v ∨ (s.vectors v).size < (s.vectors v).capacity ∧ p = i)) :
    ∃ y, SameRun (Op.emplace v p (.element v i)).call (Op.emplace v p (.const y)).call s := by
  obtain ⟨y, hsame⟩ := hopened.emplace_own hp hget hsafe
  refine ⟨y, SameRun.bind (sameRun_given ?_) fun _ _ _ => .refl _ _⟩
  exact (returns_self rfl).sameRun_bind.mpr hsame

/-- Valid operations that read only objects do what the lists allow. -/
theorem Tracks.allowed {op : Op ι α} (htracks : Tracks s lists live) (hvalid : op.valid s live = true)
    (hreads : ¬ op.Misreads s) : Allowed s lists live op := by
  cases op with
  | create v alloc =>
      rw [Op.valid, Bool.not_eq_true'] at hvalid
      exact htracks.allowed_created hvalid [] rfl rfl
  | createFilled v n value alloc =>
      rw [Op.valid, Bool.and_eq_true, Bool.not_eq_true'] at hvalid
      obtain ⟨x, hx⟩ := htracks.denote_new hvalid.1 hvalid.2
      refine htracks.allowed_created hvalid.1 (List.replicate n x) ?_ rfl
      rw [Op.apply, hx]
      rfl
  | createFrom v init alloc =>
      rw [Op.valid, Bool.not_eq_true'] at hvalid
      exact htracks.allowed_created hvalid init rfl rfl
  | copyConstruct v w =>
      rw [Op.valid, Bool.and_eq_true, Bool.not_eq_true'] at hvalid
      obtain ⟨ys, hys⟩ := htracks.exists_list hvalid.2
      refine htracks.allowed_created hvalid.1 ys ?_ rfl
      rw [Op.apply, hys]
      rfl
  | moveConstruct v w =>
      rw [Op.valid, Bool.and_eq_true, Bool.not_eq_true'] at hvalid
      obtain ⟨ys, hys⟩ := htracks.exists_list hvalid.2
      have hne : v ≠ w := by
        rintro rfl
        rw [hvalid.1] at hvalid
        cases hvalid.2
      have hnone : Function.update lists w (some []) v = none :=
        (Function.update_of_ne hne ..).trans (htracks.eq_none hvalid.1)
      have happly : (Op.moveConstruct v w).apply lists =
          some (Function.update (Function.update lists w (some [])) v (some ys)) := by
        rw [Op.apply, hys]
        exact created_of_none hnone ys
      exact allowed_self happly
        (survivors_update (survivors_changed htracks.live_eq hvalid.2 []) v (some ys))
  | destroy v =>
      obtain ⟨xs, hxs⟩ := htracks.exists_list hvalid
      have happly : (Op.destroy v).apply lists = some (Function.update lists v none) := by
        rw [Op.apply, hxs]
        rfl
      exact allowed_self happly (survivors_update htracks.live_eq v none)
  | copyAssign v w =>
      rw [Op.valid, Bool.and_eq_true] at hvalid
      obtain ⟨xs, hxs⟩ := htracks.exists_list hvalid.1
      obtain ⟨ys, hys⟩ := htracks.exists_list hvalid.2
      refine htracks.allowed_changed hvalid.1 hxs (f := fun _ => some ys) ?_ rfl rfl
      rw [Op.apply, hys]
      rfl
  | moveAssign v w =>
      rw [Op.valid, Bool.and_eq_true] at hvalid
      obtain ⟨xs, hxs⟩ := htracks.exists_list hvalid.1
      obtain ⟨ys, hys⟩ := htracks.exists_list hvalid.2
      have happly : (Op.moveAssign v w).apply lists =
          some (Function.update (Function.update lists w (some [])) v (some ys)) := by
        rw [Op.apply, hxs, hys]
        rfl
      exact allowed_self happly
        (survivors_changed (survivors_changed htracks.live_eq hvalid.2 []) hvalid.1 ys)
  | swap v w =>
      rw [Op.valid, Bool.and_eq_true] at hvalid
      obtain ⟨xs, hxs⟩ := htracks.exists_list hvalid.1
      obtain ⟨ys, hys⟩ := htracks.exists_list hvalid.2
      have happly : (Op.swap v w).apply lists =
          some (Function.update (Function.update lists w (some xs)) v (some ys)) := by
        rw [Op.apply, hxs, hys]
        rfl
      exact allowed_self happly
        (survivors_changed (survivors_changed htracks.live_eq hvalid.2 xs) hvalid.1 ys)
  | pushBack v value =>
      rw [Op.valid, Bool.and_eq_true] at hvalid
      obtain ⟨xs, hxs⟩ := htracks.exists_list hvalid.1
      obtain ⟨cells, hopened⟩ := htracks.opened_of_list hxs
      refine htracks.allowed_given hvalid.1 hxs hvalid.2 (.pushBack v) (fun _ => rfl)
        (fun _ => ⟨_, rfl⟩) (fun _ => rfl) (fun _ => id) ?_
      rintro i x rfl hget
      have hkeeps := hopened.safe_of_not_regrows fun hregrows => hreads ⟨rfl, hregrows⟩
      exact ⟨x, SameRun.bind (sameRun_given ((hopened.pushBack_own_iff hget).mpr hkeeps).1)
        fun _ _ _ => .refl _ _⟩
  | emplaceBack v value =>
      rw [Op.valid, Bool.and_eq_true] at hvalid
      obtain ⟨xs, hxs⟩ := htracks.exists_list hvalid.1
      obtain ⟨cells, hopened⟩ := htracks.opened_of_list hxs
      refine htracks.allowed_given hvalid.1 hxs hvalid.2 (.emplaceBack v) (fun _ => rfl)
        (fun _ => ⟨_, rfl⟩) (fun _ => rfl) (fun _ => id) ?_
      rintro i x rfl hget
      have hkeeps := hopened.safe_of_not_regrows fun hregrows => hreads ⟨rfl, hregrows⟩
      exact ⟨x, SameRun.bind (sameRun_given (hopened.emplaceBack_own hget hkeeps).1)
        fun _ _ _ => .refl _ _⟩
  | emplace v pos value =>
      rw [Op.valid, Bool.and_eq_true, Bool.and_eq_true, decide_eq_true_eq] at hvalid
      obtain ⟨⟨hv, hvalue⟩, hpos⟩ := hvalid
      obtain ⟨xs, hxs⟩ := htracks.exists_list hv
      rw [htracks.refines.size_eq hxs] at hpos
      obtain ⟨cells, hopened⟩ := htracks.opened_of_list hxs
      refine htracks.allowed_given hv hxs hvalue (.emplace v pos) (fun _ => rfl)
        (fun _ => ⟨_, if_pos hpos⟩) (fun _ => rfl) (fun _ => id) ?_
      rintro i x rfl hget
      exact hopened.sameRun_insertion hpos hget fun hmisreads => hreads ⟨rfl, hmisreads⟩
  | insert v pos value =>
      rw [Op.valid, Bool.and_eq_true, Bool.and_eq_true, decide_eq_true_eq] at hvalid
      obtain ⟨⟨hv, hvalue⟩, hpos⟩ := hvalid
      obtain ⟨xs, hxs⟩ := htracks.exists_list hv
      rw [htracks.refines.size_eq hxs] at hpos
      obtain ⟨cells, hopened⟩ := htracks.opened_of_list hxs
      refine htracks.allowed_given hv hxs hvalue (.insert v pos) (fun _ => rfl)
        (fun _ => ⟨_, if_pos hpos⟩) (fun _ => rfl) (fun _ => id) ?_
      rintro i x rfl hget
      exact hopened.sameRun_insertion hpos hget fun hmisreads => hreads ⟨rfl, hmisreads⟩
  | erase v pos =>
      rw [Op.valid, Bool.and_eq_true, decide_eq_true_eq] at hvalid
      obtain ⟨xs, hxs⟩ := htracks.exists_list hvalid.1
      rw [htracks.refines.size_eq hxs] at hvalid
      exact htracks.allowed_changed hvalid.1 hxs rfl (if_pos hvalid.2) rfl
  | eraseRange v first last =>
      rw [Op.valid, Bool.and_eq_true, decide_eq_true_eq] at hvalid
      obtain ⟨xs, hxs⟩ := htracks.exists_list hvalid.1
      rw [htracks.refines.size_eq hxs] at hvalid
      exact htracks.allowed_changed hvalid.1 hxs rfl (if_pos hvalid.2) rfl
  | popBack v =>
      obtain ⟨xs, hxs⟩ := htracks.exists_list hvalid
      exact htracks.allowed_changed hvalid hxs rfl rfl rfl
  | resize v n value =>
      rw [Op.valid, Bool.and_eq_true] at hvalid
      obtain ⟨xs, hxs⟩ := htracks.exists_list hvalid.1
      obtain ⟨cells, hopened⟩ := htracks.opened_of_list hxs
      refine htracks.allowed_given hvalid.1 hxs hvalid.2 (.resize v n) (fun _ => rfl)
        (fun _ => ⟨_, rfl⟩) (fun _ => rfl) (fun _ => id) ?_
      rintro i x rfl hget
      have hkeeps : n ≤ cells.length ∨ ¬ s.Grants n := by
        rw [Op.Misreads, hopened.vector, eq_self, true_and, not_and_or, Nat.not_lt] at hreads
        exact hreads
      exact ⟨x, SameRun.bind (sameRun_given ((hopened.resize_own_iff hget n).mpr hkeeps).1)
        fun _ _ _ => .refl _ _⟩
  | reserve v n =>
      obtain ⟨xs, hxs⟩ := htracks.exists_list hvalid
      exact htracks.allowed_changed hvalid hxs rfl rfl rfl
  | shrinkToFit v =>
      obtain ⟨xs, hxs⟩ := htracks.exists_list hvalid
      exact htracks.allowed_changed hvalid hxs rfl rfl rfl
  | clear v =>
      obtain ⟨xs, hxs⟩ := htracks.exists_list hvalid
      exact htracks.allowed_changed hvalid hxs rfl rfl rfl

/-! ## Refused allocations -/

omit [DecidableEq ι] in
theorem neverThrows_pass (value : Value ι α) : NeverThrows value.pass := by
  cases value with
  | const x => exact neverThrows_pure _
  | element w i => exact (neverThrows_self w).bind fun _ => neverThrows_pure _

omit [DecidableEq ι] in
/-- A reference is taken without a change. -/
theorem thrown_passed {next : Arg α → M ι α β} (hthrows : Throws (value.pass >>= next) s error s') :
    ∃ arg, Throws (next arg) s error s' := by
  obtain ⟨arg, s₁, hpass, hnext⟩ := hthrows.of_bind (neverThrows_pass value)
  have hsame : s₁ = s := by
    cases value with
    | const x => exact hpass.pure_inv.2
    | element w i => exact (hpass.unique (returns_pass_element s w i)).2
  rw [hsame] at hnext
  exact ⟨arg, hnext⟩

omit [DecidableEq ι] in
theorem thrown_self {next : CppVector → M ι α β} (hthrows : Throws (self v >>= next) s error s') :
    Throws (next (s.vectors v)) s error s' := by
  obtain ⟨this, s₁, hself, hnext⟩ := hthrows.of_bind (neverThrows_self v)
  obtain ⟨rfl, rfl⟩ := hself.unique (returns_self rfl)
  exact hnext

theorem thrown_newBuffer {a : ℕ} (hthrows : Throws (newBuffer v a n) s error s') : s' = s := by
  rw [newBuffer] at hthrows
  split_ifs at hthrows
  · exact absurd hthrows (neverThrows_update v _ _ _ _)
  · exact thrown_allocate (hthrows.first fun _ => neverThrows_update v _)

theorem neverThrows_moveConstruct (v w : ι) : NeverThrows (moveConstruct v w : M ι α Unit) :=
  (neverThrows_self w).bind fun _ => (neverThrows_update w _).bind fun _ => neverThrows_update v _

theorem neverThrows_moveAllocator (v : ι) (a : ℕ) : NeverThrows (moveAllocator v a : M ι α Unit) :=
  neverThrows_get.bind fun _ => .ite (neverThrows_update v _) (neverThrows_pure ())

theorem neverThrows_moveAssign (v w : ι) : NeverThrows (moveAssign v w : M ι α Unit) :=
  .ite (neverThrows_pure ()) ((neverThrows_self w).bind fun _ => (neverThrows_moveAllocator v _).bind
    fun _ => (neverThrows_release v).bind fun _ => (neverThrows_update v _).bind
      fun _ => neverThrows_update w _)

theorem neverThrows_swap (v w : ι) : NeverThrows (swap v w : M ι α Unit) :=
  neverThrows_get.bind fun _ => (neverThrows_self v).bind fun _ => (neverThrows_self w).bind
    fun _ => (neverThrows_update v _).bind fun _ => neverThrows_update w _

theorem neverThrows_erase (v : ι) (pos : Iterator) : NeverThrows (erase v pos : M ι α Iterator) := by
  refine (neverThrows_self v).bind fun this => (neverThrows_assertWithin this pos).bind fun _ =>
    .ite neverThrows_undefined (NeverThrows.bind (neverThrows_forEach (fun k => ?_) _ _) fun _ =>
      (neverThrows_update v _).bind fun _ => (neverThrows_destroyAt _ _).bind fun _ => neverThrows_pure _)
  exact (neverThrows_moveFrom _ _).bind fun _ => neverThrows_assignSlot _ k _

theorem neverThrows_eraseRange (v : ι) (first last : Iterator) :
    NeverThrows (eraseRange v first last : M ι α Iterator) := by
  refine (neverThrows_self v).bind fun this => (neverThrows_assertWithin this last).bind fun _ =>
    .ite (.ite (neverThrows_pure _) (NeverThrows.bind (neverThrows_forEach (fun k => ?_) _ _) fun _ =>
      (neverThrows_destroy_each _ _ _).bind fun _ => (neverThrows_update v _).bind
        fun _ => neverThrows_pure _)) neverThrows_undefined
  exact (neverThrows_moveFrom _ _).bind fun _ => neverThrows_assignSlot _ k _

theorem neverThrows_popBack (v : ι) : NeverThrows (popBack v : M ι α Unit) :=
  (neverThrows_self v).bind fun _ => .ite ((neverThrows_update v _).bind
    fun _ => neverThrows_destroyAt _ _) (neverThrows_pure ())

/-- Only a copy assignment has changed something when it is refused an allocation. -/
theorem Op.thrown {op : Op ι α} (hother : ∀ v w, op ≠ .copyAssign v w)
    (hthrows : Throws op.call s error s') : s' = s := by
  have hfirst : ∀ {program : M ι α Unit}, Throws (silent program) s error s' →
      Throws program s error s' := fun h => h.first fun _ => neverThrows_pure none
  have hpositioned : ∀ {program : M ι α Iterator}, Throws (positioned program) s error s' →
      Throws program s error s' := fun h => h.first fun _ => neverThrows_pure _
  cases op with
  | create v alloc => exact absurd (hfirst hthrows) (neverThrows_update v _ _ _ _)
  | createFilled v n value alloc =>
      obtain ⟨arg, hcreate⟩ := thrown_passed (hfirst hthrows)
      exact thrown_newBuffer (hcreate.first fun _ => (neverThrows_self v).bind fun _ =>
        neverThrows_forEach (fun k => (neverThrows_arg arg).bind fun _ => neverThrows_construct _ k _) _ _)
  | createFrom v init alloc =>
      exact thrown_newBuffer ((hfirst hthrows).first fun _ => (neverThrows_self v).bind fun _ =>
        neverThrows_forEach (fun k => (neverThrows_defined _).bind fun _ =>
          neverThrows_construct _ k _) _ _)
  | copyConstruct v w =>
      obtain ⟨_, _, hget, hself⟩ := (hfirst hthrows).of_bind neverThrows_get
      obtain ⟨rfl, rfl⟩ := hget.get_inv
      exact thrown_newBuffer ((thrown_self hself).first fun _ => (neverThrows_self v).bind fun _ =>
        neverThrows_copyElements _ _)
  | moveConstruct v w => exact absurd (hfirst hthrows) (neverThrows_moveConstruct v w _ _ _)
  | destroy v => exact absurd (hfirst hthrows) (neverThrows_release v _ _ _)
  | copyAssign v w => exact absurd rfl (hother v w)
  | moveAssign v w => exact absurd (hfirst hthrows) (neverThrows_moveAssign v w _ _ _)
  | swap v w => exact absurd (hfirst hthrows) (neverThrows_swap v w _ _ _)
  | pushBack v value =>
      obtain ⟨arg, hpush⟩ := thrown_passed (hfirst hthrows)
      exact thrown_emplaceBack (hpush.first fun _ => neverThrows_pure _)
  | emplaceBack v value =>
      obtain ⟨arg, hemplace⟩ := thrown_passed (hpositioned hthrows)
      exact thrown_emplaceBack hemplace
  | emplace v pos value =>
      obtain ⟨arg, hself⟩ := thrown_passed (hpositioned hthrows)
      exact thrown_emplace (thrown_self hself)
  | insert v pos value =>
      obtain ⟨arg, hself⟩ := thrown_passed (hpositioned hthrows)
      exact thrown_emplace (thrown_self hself)
  | erase v pos => exact absurd (thrown_self (hpositioned hthrows)) (neverThrows_erase v _ _ _ _)
  | eraseRange v first last =>
      exact absurd (thrown_self (hpositioned hthrows)) (neverThrows_eraseRange v _ _ _ _ _)
  | popBack v => exact absurd (hfirst hthrows) (neverThrows_popBack v _ _ _)
  | resize v n value =>
      obtain ⟨arg, hresize⟩ := thrown_passed (hfirst hthrows)
      exact thrown_resize hresize
  | reserve v n => exact thrown_reserve (hfirst hthrows)
  | shrinkToFit v => exact thrown_shrinkToFit (hfirst hthrows)
  | clear v => exact absurd (hfirst hthrows) (neverThrows_clear v _ _ _)

/-- A vector without a buffer is left as it is. -/
theorem leads_null_released (hnull : s.vectors v = ⟨n, none, 0, 0⟩) {u : Unit}
    (hrelease : Returns (release v) s u s') : Leads s none v [] (Clean s v) s' := by
  have hempty := opened_none hnull
  rw [(hrelease.unique hempty.returns_release).2]
  exact hempty.leads_released _

/-- A copy assignment that is refused an allocation leaves an empty vector, unless the buffer
was released and is still held. -/
theorem Opened.leads_thrown (hopened : Opened s v xs data cells)
    (hthrows : Throws (copyAssign v w) s error s') (hkeeps : ¬ Releases s v w) :
    Leads s data v [] (Clean s v) s' := by
  have hne : v ≠ w := by
    rintro rfl
    rw [copyAssign, if_pos rfl] at hthrows
    exact neverThrows_pure () _ _ _ hthrows
  obtain ⟨s₁, htake, hrelease, hmore, hrefused⟩ := CppVector.thrown_copyAssign hthrows
  by_cases htakes : Takes s v w
  · obtain rfl := (htake.unique (hopened.returns_copyAllocator_of_takes htakes)).2
    exact (hopened.leads_released _).trans (opened_none (Store.vectors_withVector _))
      (leads_null_released (Store.vectors_withVector _) hrelease) fun _ => id
  · obtain rfl := (htake.unique (returns_copyAllocator_of_keeps htakes)).2
    have hgrants : ¬ s₁.Grants (s₁.vectors w).size := by
      rw [(hrelease.unique hopened.returns_release).2] at hrefused
      exact fun hgrants => hrefused (Store.grants_released.mpr hgrants)
    have hnull : data = none := by
      by_contra hdata
      rw [← hopened.data_eq] at hdata
      exact hkeeps ⟨hne, htakes, hmore, hdata, hgrants⟩
    subst hnull
    obtain rfl : [] = cells := Option.some.inj hopened.buffer
    obtain rfl := List.length_eq_zero_iff.mp (Nat.le_zero.mp hopened.fits)
    exact leads_null_released hopened.vector hrelease

/-- After an exception the vectors that were there are still there. -/
theorem Tracks.thrown {op : Op ι α} (htracks : Tracks s lists live) (hvalid : op.valid s live = true)
    (hkeeps : ¬ op.Releases s) (hthrows : Throws op.call s error s') :
    ∃ lists', Tracks s' lists' live := by
  by_cases hassign : ∃ v w, op = .copyAssign v w
  · obtain ⟨v, w, rfl⟩ := hassign
    rw [Op.valid, Bool.and_eq_true] at hvalid
    obtain ⟨xs, hxs⟩ := htracks.exists_list hvalid.1
    obtain ⟨cells, hopened⟩ := htracks.refines.opened_own hxs
    have hleads := hopened.leads_thrown (hthrows.first fun _ => neverThrows_pure none) hkeeps
    exact ⟨_, hleads.refines htracks.refines, hleads.tidy htracks.refines
      (htracks.tidy.clean v xs hxs) htracks.tidy, survivors_changed htracks.live_eq hvalid.1 []⟩
  · rw [Op.thrown (fun v w heq => hassign ⟨v, w, heq⟩) hthrows]
    exact ⟨lists, htracks⟩

/-! ## One operation -/

/-- Operations that break nothing keep the vectors and their lists together. -/
theorem Tracks.after {op : Op ι α} (htracks : Tracks s lists live) (hvalid : op.valid s live = true)
    (hkeeps : ¬ (op.Overwrites s ∨ op.Releases s ∨ op.Misreads s)) :
    ∃ s' lists' live', Scope.after live op (op.call.run.run s) = ⟨some s', live'⟩ ∧
      Tracks s' lists' live' := by
  rw [not_or, not_or] at hkeeps
  obtain ⟨hover, hreleases, hreads⟩ := hkeeps
  obtain ⟨op', lists', hsame, happly, himp, hlive⟩ := htracks.allowed hvalid hreads
  rcases call_turns htracks.refines happly with ⟨pos, s', hcall, hfollows, -⟩ | ⟨error, s', hthrows⟩
  · refine ⟨s', lists', op.survivors live, ?_, hfollows.refines,
      hfollows.tidy (fun hover' => hover (himp hover')) htracks.tidy, hlive⟩
    rw [show op.call.run.run s = some (.ok pos, s') from hsame.symm.returns hcall]
    rfl
  · have hthrown : Throws op.call s error s' := Eq.trans hsame hthrows
    obtain ⟨lists'', htracks'⟩ := htracks.thrown hvalid hreleases hthrown
    refine ⟨s', lists'', live, ?_, htracks'⟩
    rw [show op.call.run.run s = some (.error error, s') from hthrown]
    rfl

end CppVector

end CppProjects
