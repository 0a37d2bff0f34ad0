import CppProjects.Vector.CppVectorSteps

/-!
# Elements of a `vector` as arguments

`push_back`, `insert` and `resize` take a `const T &`, which may refer to an element
of the vector itself.  They read it when the elements may have moved to another
buffer, or one place to the right.
-/

namespace CppProjects

open CInt Program

namespace CppVector

variable {ι α β : Type} {s s' : Store ι α} {x y : α} {data : Option ℕ} {i p n : ℕ} {v : ι}
  {cells : List (Slot α)} {xs : List α}

/-- From `s` on both programs do the same, and nothing undefined. -/
def Agree (program other : M ι α β) (s : Store ι α) : Prop :=
  SameRun program other s ∧ ¬ Stuck program s

section Agree

variable {program other : M ι α β} {common : M ι α Unit} {next next' : Unit → M ι α β} {value : β}

theorem agree_of_returns (h : Returns program s value s') (h' : Returns other s value s') :
    Agree program other s :=
  ⟨h.sameRun h', fun hstuck => hstuck.not_returns h⟩

/-- A common first part that returns. -/
theorem agree_bind_iff {γ : Type} {common : M ι α γ} {next next' : γ → M ι α β} {value : γ}
    (h : Returns common s value s') :
    Agree (common >>= next) (common >>= next') s ↔ Agree (next value) (next' value) s' := by
  have hstuck : Stuck (common >>= next) s ↔ Stuck (next value) s' := by
    refine ⟨fun hbind => ?_, h.bind_stuck⟩
    rcases hbind.bind_inv with hfirst | ⟨value', t, hreturns, hnext⟩
    · exact absurd h hfirst.not_returns
    · obtain ⟨rfl, rfl⟩ := hreturns.unique h
      exact hnext
  rw [Agree, h.sameRun_bind, hstuck, Agree]

theorem agree_of_throws {error : Failure} (h : Throws common s error s') :
    Agree (common >>= next) (common >>= next') s :=
  ⟨h.sameRun_bind, h.bind.not_stuck⟩

theorem Agree.discard (h : Agree program other s) :
    Agree (do let _ ← program) (do let _ ← other) s := by
  obtain ⟨hsame, hdefined⟩ := h
  refine ⟨hsame.bind fun _ _ _ => .refl _ _, fun hstuck => ?_⟩
  rcases hstuck.bind_inv with hfirst | ⟨value, s', -, hpure⟩
  · exact hdefined hfirst
  · exact hpure.not_returns (returns_pure () s')

theorem not_agree (h : Stuck program s) : ¬ Agree program other s := fun hagree => hagree.2 h

end Agree

theorem returns_temp (x : α) (s : Store ι α) : Returns (Arg.temp x).get s x s := returns_pure x s

/-- The slots from `off` on are given the value that one in front of them has. -/
theorem returns_get_overwrite (hdata : s.heap.cellsAt data = some cells)
    (hget : cells[i]? = some (.full x)) {off : ℕ} (hbefore : i < off) (slots : List (Slot α))
    (hfits : off + slots.length ≤ cells.length) (lost : ℕ) :
    Returns (Arg.slot data i).get (s.withCells data (overwrite cells off slots) lost) x
      (s.withCells data (overwrite cells off slots) lost) := by
  refine returns_valueAt (Store.cellsAt_withCells s hdata (length_overwrite hfits) lost) ?_
  rw [getElem?_overwrite hfits, if_pos hbefore]
  exact hget

variable [DecidableEq ι]

/-! ## A new last element -/

theorem Opened.returns_emplaceBack_of_room (hopened : Opened s v xs data cells)
    (hroom : xs.length < cells.length) {arg : Arg α} (hread : Returns arg.get s x s) :
    Returns (emplaceBack v arg) s ⟨data, xs.length⟩ (s.extended v data
      (cells.set xs.length (.full x)) (s.lost + objects [cells[xs.length]]) (xs.length + 1)) :=
  (hopened.returns_growIfFull_of_room hroom).bind (hopened.returns_appendElement hroom hread)

/-- A full vector moves its elements before it reads the argument. -/
theorem Opened.stuck_emplaceBack (hopened : Opened s v xs data cells)
    (hfull : cells.length ≤ xs.length) (hgrants : s.Grants (doubled cells.length)) (i : ℕ) :
    Stuck (emplaceBack v (.slot data i)) s :=
  (hopened.returns_growIfFull hfull hgrants).bind_stuck
    ((returns_self rfl).bind_stuck (stuck_released (fun _ => reallocated_released) i).bind)

theorem Opened.emplaceBack_own (hopened : Opened s v xs data cells) (hget : xs[i]? = some x)
    (hsafe : xs.length < cells.length ∨ ¬ s.Grants (doubled cells.length)) :
    Agree (emplaceBack v (.slot data i)) (emplaceBack v (.temp x)) s := by
  by_cases hroom : xs.length < cells.length
  · exact agree_of_returns (hopened.returns_emplaceBack_of_room hroom (hopened.reads hget))
      (hopened.returns_emplaceBack_of_room hroom (returns_temp x s))
  · have hrefused := hsafe.resolve_left hroom
    obtain ⟨error, hthrows⟩ := hopened.throws_growIfFull (Nat.not_lt.mp hroom) hrefused
    exact agree_of_throws hthrows

theorem Opened.pushBack_own_iff (hopened : Opened s v xs data cells) (hget : xs[i]? = some x) :
    Agree (pushBack v (.slot data i)) (pushBack v (.temp x)) s ↔
      xs.length < cells.length ∨ ¬ s.Grants (doubled cells.length) := by
  by_cases hsafe : xs.length < cells.length ∨ ¬ s.Grants (doubled cells.length)
  · exact iff_of_true (hopened.emplaceBack_own hget hsafe).discard hsafe
  · rw [not_or, Nat.not_lt, not_not] at hsafe
    obtain ⟨hfull, hgrants⟩ := hsafe
    refine iff_of_false (not_agree (hopened.stuck_emplaceBack hfull hgrants i).bind) ?_
    rintro (hroom | hrefused)
    · exact absurd hroom (Nat.not_lt.mpr hfull)
    · exact hrefused hgrants

/-! ## A new element before another one -/

omit [DecidableEq ι] in
/-- The slot of the argument, when there is a gap at `p`. -/
theorem Opened.getElem?_opened (hopened : Opened s v xs data cells) (hp : p ≤ xs.length)
    (hroom : xs.length < cells.length) (hget : xs[i]? = some x) :
    (gapped cells xs p .raw)[i]? =
      if i < p then some (.full x) else if i = p then some .raw else (xs[i - 1]?).map .full := by
  split_ifs with hbefore hat
  · rw [getElem?_gapped_of_lt hp hroom _ hbefore]
    exact hopened.getElem? hget
  · rw [hat]
    exact getElem?_gapped_self hp hroom _
  · have hlt := (List.getElem?_eq_some_iff.mp hget).1
    have hmoved : xs[i - 1]? = some xs[i - 1] := List.getElem?_eq_getElem (by omega)
    rw [getElem?_gapped_of_gt hp hroom _ (by omega) hmoved, hmoved, Option.map_some]

/-- What was put into the gap can be seen in the store. -/
theorem extended_injective (hopened : Opened s v xs data cells) (hp : p ≤ xs.length)
    (hroom : xs.length < cells.length) {lost size : ℕ}
    (heq : s.extended v data (gapped cells xs p (.full x)) lost size =
      s.extended v data (gapped cells xs p (.full y)) lost size) : x = y := by
  have hcells : ∀ z, (s.extended v data (gapped cells xs p (.full z)) lost size).heap.cellsAt data =
      some (gapped cells xs p (.full z)) := fun z =>
    Store.cellsAt_withCells s hopened.buffer (length_gapped hp hroom _) lost
  have hsame : gapped cells xs p (.full x) = gapped cells xs p (.full y) :=
    Option.some.inj ((hcells x).symm.trans ((congrArg (fun t => t.heap.cellsAt data) heq).trans (hcells y)))
  have hslot := getElem?_gapped_self hp hroom (Slot.full x)
  rw [hsame, getElem?_gapped_self hp hroom] at hslot
  exact (Slot.full.inj (Option.some.inj hslot)).symm

/-- With room for the element, the argument is read behind the gap, where the element
before it may stand now. -/
theorem Opened.insertElement_own_iff (hopened : Opened s v xs data cells) (hget : xs[i]? = some x)
    (hp : p < xs.length) (hroom : xs.length < cells.length) :
    Agree (insertElement v p (.slot data i)) (insertElement v p (.temp x)) s ↔
      i < p ∨ p < i ∧ xs[i - 1]? = some x := by
  have hlt := (List.getElem?_eq_some_iff.mp hget).1
  have hbuffer := Store.cellsAt_withCells s hopened.buffer (length_gapped hp.le hroom Slot.raw)
    (s.lost + objects [cells[xs.length]])
  have hslot := hopened.getElem?_opened hp.le hroom hget
  have hcopy := hopened.returns_insertElement hroom hp (returns_temp x _)
  rcases lt_trichotomy i p with hbefore | rfl | hbehind
  · rw [if_pos hbefore] at hslot
    refine iff_of_true ?_ (.inl hbefore)
    exact agree_of_returns (hopened.returns_insertElement hroom hp (returns_valueAt hbuffer hslot)) hcopy
  · rw [if_neg (lt_irrefl i), if_pos rfl] at hslot
    refine iff_of_false (not_agree (hopened.stuck_insertElement hroom hp (stuck_raw hbuffer hslot))) ?_
    rintro (hlt | ⟨hlt, -⟩) <;> exact absurd hlt (lt_irrefl i)
  · have hmoved : xs[i - 1]? = some xs[i - 1] := List.getElem?_eq_getElem (by omega)
    rw [if_neg (by omega), if_neg (by omega), hmoved, Option.map_some] at hslot
    have hread : Returns (Arg.slot data i).get _ xs[i - 1] _ := returns_valueAt hbuffer hslot
    have hown := hopened.returns_insertElement hroom hp hread
    rw [hmoved]
    constructor
    · rintro ⟨hsame, -⟩
      have hstores := ((hsame.returns hown).unique hcopy).2
      exact .inr ⟨hbehind, congrArg some (extended_injective hopened hp.le hroom hstores)⟩
    · rintro (hbefore | ⟨-, hequal⟩)
      · omega
      · rw [Option.some.inj hequal] at hown
        exact agree_of_returns hown hcopy

/-- A full vector moves its elements before it reads the argument. -/
theorem Opened.stuck_insertElement_grown (hopened : Opened s v xs data cells) (hp : p < xs.length)
    (hfull : cells.length ≤ xs.length) (hgrants : s.Grants (doubled cells.length)) (i : ℕ) :
    Stuck (do growIfFull v; insertElement v p (.slot data i)) s := by
  have hgrow := doubled_spec hopened.small
  have hfits : xs.length ≤ doubled cells.length := hopened.fits.trans hgrow.le
  have hgrown := hopened.reallocated hfits hgrants
  have hroom : xs.length < (moved (doubled cells.length) xs).length := by
    rw [length_moved hfits]
    exact hopened.fits.trans_lt hgrow
  refine (hopened.returns_growIfFull hfull hgrants).bind_stuck
    (hgrown.stuck_insertElement hroom hp (stuck_released ?_ i))
  intro addr hdata
  have hother : some s.heap.next ≠ some addr := hdata ▸ hopened.ne_new.symm
  exact (ArrayHeap.replaceAt_arrays_of_ne hother).trans (reallocated_released hdata)

theorem Opened.insert_own_iff (hopened : Opened s v xs data cells) (hget : xs[i]? = some x)
    (hp : p ≤ xs.length) :
    Agree (insert v ⟨data, p⟩ (.slot data i)) (insert v ⟨data, p⟩ (.temp x)) s ↔
      if xs.length < cells.length then p = xs.length ∨ i < p ∨ p < i ∧ xs[i - 1]? = some x
      else ¬ s.Grants (doubled cells.length) := by
  have hwithin : Returns (assertWithin ⟨(s.vectors v).alloc, data, xs.length, cells.length⟩ ⟨data, p⟩)
      s () s := by
    rw [assertWithin, if_pos ⟨rfl, hp⟩]
    exact returns_pure () s
  rw [insert, insert, emplace, emplace, agree_bind_iff (returns_self hopened.vector),
    agree_bind_iff hwithin]
  dsimp only
  by_cases hend : p = xs.length
  · rw [if_pos hend, if_pos hend]
    split_ifs with hroom
    · exact iff_of_true (hopened.emplaceBack_own hget (.inl hroom)) (.inl hend)
    · by_cases hgrants : s.Grants (doubled cells.length)
      · exact iff_of_false (not_agree (hopened.stuck_emplaceBack (Nat.not_lt.mp hroom) hgrants i))
          (not_not_intro hgrants)
      · exact iff_of_true (hopened.emplaceBack_own hget (.inr hgrants)) hgrants
  · rw [if_neg hend, if_neg hend]
    have hlt : p < xs.length := by omega
    split_ifs with hroom
    · rw [agree_bind_iff (hopened.returns_growIfFull_of_room hroom),
        hopened.insertElement_own_iff hget hlt hroom]
      exact (or_iff_right hend).symm
    · have hfull : cells.length ≤ xs.length := Nat.not_lt.mp hroom
      by_cases hgrants : s.Grants (doubled cells.length)
      · exact iff_of_false (not_agree (hopened.stuck_insertElement_grown hlt hfull hgrants i))
          (not_not_intro hgrants)
      · obtain ⟨error, hthrows⟩ := hopened.throws_growIfFull hfull hgrants
        exact iff_of_true (agree_of_throws hthrows) hgrants

/-! ## More elements of one value -/

theorem Opened.returns_reserve_of_room (hopened : Opened s v xs data cells) (hroom : n ≤ cells.length) :
    Returns (reserve v n) s () s := by
  refine (returns_self hopened.vector).bind ?_
  rw [if_neg (Nat.not_lt.mpr hroom)]
  exact returns_pure () s

/-- With room for them, the new elements are made of an element in front of them. -/
theorem Opened.resize_own_of_room (hopened : Opened s v xs data cells) (hget : xs[i]? = some x)
    (hlonger : xs.length < n) (hroom : n ≤ cells.length) :
    Agree (do reserve v n; fillUp v n (.slot data i); update v fun this => { this with size := n })
      (do reserve v n; fillUp v n (.temp x); update v fun this => { this with size := n }) s := by
  rw [agree_bind_iff (hopened.returns_reserve_of_room hroom)]
  have hindex := (List.getElem?_eq_some_iff.mp hget).1
  have hown : Returns (fillUp v n (.slot data i)) s () _ := hopened.returns_fillUp hroom hlonger.le
    fun k hk lost => by
    refine returns_get_overwrite hopened.buffer (hopened.getElem? hget) hindex _ ?_ lost
    rw [List.length_replicate]
    omega
  have hcopy : Returns (fillUp v n (.temp x)) s () _ := hopened.returns_fillUp hroom hlonger.le
    fun k hk lost => returns_temp x _
  have hupdate := returns_update (show (s.withCells data (overwrite cells xs.length
    (List.replicate (n - xs.length) (.full x)))
    (s.lost + objects ((cells.drop xs.length).take (n - xs.length)))).vectors v = _
    from hopened.vector) fun this => { this with size := n }
  exact agree_of_returns (hown.bind hupdate) (hcopy.bind hupdate)

theorem Opened.returns_reserve (hopened : Opened s v xs data cells) (hmore : cells.length < n)
    (hgrants : s.Grants n) : Returns (reserve v n) s () (s.reallocated v data cells xs n) := by
  refine (returns_self hopened.vector).bind ?_
  rw [if_pos hmore]
  exact hopened.returns_reallocate (hopened.fits.trans hmore.le) hgrants

theorem Opened.throws_reserve (hopened : Opened s v xs data cells) (hmore : cells.length < n)
    (hrefused : ¬ s.Grants n) : ∃ error, Throws (reserve v n) s error s := by
  obtain ⟨error, hthrows⟩ := throws_reallocate (v := v) hrefused
  refine ⟨error, (returns_self hopened.vector).bind_throws ?_⟩
  rw [if_pos hmore]
  exact hthrows

/-- With other elements to make, the first one is read from the old buffer. -/
theorem Opened.stuck_fillUp_grown (hopened : Opened s v xs data cells) (hmore : cells.length < n)
    (hgrants : s.Grants n) (i : ℕ) :
    Stuck (fillUp v n (.slot data i)) (s.reallocated v data cells xs n) := by
  have hfits := hopened.fits
  obtain ⟨rest, hrest⟩ : ∃ rest, n - xs.length = rest + 1 := ⟨n - xs.length - 1, by omega⟩
  have hgrown := hopened.reallocated (hfits.trans hmore.le) hgrants
  refine (returns_self hgrown.vector).bind_stuck ?_
  dsimp only
  rw [hrest]
  exact (stuck_released (fun _ => reallocated_released) i).bind.bind

theorem Opened.resize_own_iff (hopened : Opened s v xs data cells) (hget : xs[i]? = some x) (n : ℕ) :
    Agree (resize v n (.slot data i)) (resize v n (.temp x)) s ↔ n ≤ cells.length ∨ ¬ s.Grants n := by
  have hfits := hopened.fits
  rw [resize, resize, agree_bind_iff (returns_self hopened.vector)]
  dsimp only
  rcases lt_trichotomy xs.length n with hlonger | rfl | hshorter
  · rw [if_pos hlonger, if_pos hlonger]
    by_cases hroom : n ≤ cells.length
    · exact iff_of_true (hopened.resize_own_of_room hget hlonger hroom) (.inl hroom)
    · have hmore : cells.length < n := Nat.not_le.mp hroom
      by_cases hgrants : s.Grants n
      · refine iff_of_false (not_agree ((hopened.returns_reserve hmore hgrants).bind_stuck
          (hopened.stuck_fillUp_grown hmore hgrants i).bind)) ?_
        rintro (hle | hrefused)
        · exact hroom hle
        · exact hrefused hgrants
      · obtain ⟨error, hthrows⟩ := hopened.throws_reserve hmore hgrants
        exact iff_of_true (agree_of_throws hthrows) (.inr hgrants)
  · rw [if_neg (lt_irrefl _), if_neg (lt_irrefl _), if_neg (lt_irrefl _)]
    have hupdate := returns_update hopened.vector fun this => { this with size := xs.length }
    exact iff_of_true (agree_of_returns hupdate hupdate) (.inl hfits)
  · rw [if_neg hshorter.le.not_gt, if_neg hshorter.le.not_gt, if_pos hshorter]
    have hthis : (s.withCells data (overwrite cells n (List.replicate (xs.length - n) .raw))
        s.lost).vectors v = _ := hopened.vector
    have hshorten : Returns (do
        forEach (destroyAt data) n (xs.length - n)
        update v fun this => { this with size := n }) s () _ :=
      (hopened.returns_destroy_from hshorter.le).bind (returns_update hthis _)
    exact iff_of_true (agree_of_returns hshorten hshorten) (.inl (hshorter.le.trans hfits))

/-! ## Operations given an element -/

/-- The operations that take a value by reference. -/
inductive Taking
  | pushBack
  | insert (pos : ℕ)
  | resize (n : ℕ)
deriving DecidableEq, Repr

/-- The operation on `v` does the same with both arguments, and reads no slot that was
released or destroyed: the same store, the same exception and the same position
returned. -/
def Taking.Agrees (s : Store ι α) (v : ι) (own copy : Arg α) : Taking → Prop
  | .pushBack => Agree (CppVector.pushBack v own) (CppVector.pushBack v copy) s
  | .insert pos => Agree (CppVector.insert v ⟨(s.vectors v).data, pos⟩ own)
      (CppVector.insert v ⟨(s.vectors v).data, pos⟩ copy) s
  | .resize n => Agree (CppVector.resize v n own) (CppVector.resize v n copy) s

/-- Positions are within the vector. -/
def Taking.Valid (size : ℕ) : Taking → Prop
  | .pushBack => True
  | .insert pos => pos ≤ size
  | .resize _ => True

/-- The calls that can be given the element at `i`: those that do not come to ask for a
new buffer, or are refused it, and of them an `insert` only at the end, behind the
element, or before it where the one before it is equal. -/
def Taking.Safe (s : Store ι α) (this : CppVector) (xs : List α) (i : ℕ) : Taking → Prop
  | .pushBack => this.size < this.capacity ∨ ¬ s.Grants (doubled this.capacity)
  | .insert pos =>
      if this.size < this.capacity then pos = this.size ∨ i < pos ∨ pos < i ∧ xs[i - 1]? = xs[i]?
      else ¬ s.Grants (doubled this.capacity)
  | .resize n => n ≤ this.capacity ∨ ¬ s.Grants n

/-- An operation given an element of its vector does what it does with a copy of it
exactly in the safe calls. -/
theorem own_argument_iff (hopened : Opened s v xs data cells) (hget : xs[i]? = some x) (op : Taking)
    (hvalid : op.Valid xs.length) :
    op.Agrees s v (.slot data i) (.temp x) ↔ op.Safe s (s.vectors v) xs i := by
  cases op with
  | pushBack =>
      rw [Taking.Agrees, Taking.Safe, hopened.vector]
      exact hopened.pushBack_own_iff hget
  | insert pos =>
      rw [Taking.Agrees, Taking.Safe, hopened.vector, hget]
      exact hopened.insert_own_iff hget hvalid
  | resize n =>
      rw [Taking.Agrees, Taking.Safe, hopened.vector]
      exact hopened.resize_own_iff hget n

/-- An allocator that says nothing of itself. -/
def plainTraits : AllocatorTraits := ⟨2 ^ 60, id, false, false, false⟩

/-- One vector with the buffer `cells`, the first `size` of which are elements. -/
def single (cells : List (Slot ℕ)) (size : ℕ) : Store Unit ℕ :=
  ⟨ArrayHeap.empty.alloc cells, fun _ => ⟨0, some 0, size, cells.length⟩, plainTraits,
    fun _ => false, 0⟩

/-- `v.insert(v.begin() + 1, v[0])` with room for one more element. -/
theorem own_argument_insert :
    (Taking.insert 1).Agrees (single [.full 5, .full 6, .raw] 2) () (.slot (some 0) 0) (.temp 5) := by
  have hopened : Opened (single [.full 5, .full 6, .raw] 2) () [5, 6] (some 0)
      [.full 5, .full 6, .raw] := ⟨rfl, rfl, by decide, ⟨[.raw], rfl⟩⟩
  exact (own_argument_iff hopened rfl (.insert 1) (show 1 ≤ 2 by decide)).mpr (.inr (.inl (by decide)))

/-- `v.push_back(5); v.push_back(v[0]);` reads the buffer that the second call has
released. -/
theorem own_argument_released :
    ∃ s : Store Unit ℕ, Returns (pushBack () (.temp 5))
        ⟨.empty, fun _ => ⟨0, none, 0, 0⟩, plainTraits, fun _ => false, 0⟩ () s ∧
      Stuck (pushBack () (.slot (s.vectors ()).data 0)) s ∧
      ¬ Taking.pushBack.Agrees s () (.slot (s.vectors ()).data 0) (.temp 5) := by
  refine ⟨_, rfl, rfl, fun hagree => hagree.2 rfl⟩

end CppVector

end CppProjects
