import CppProjects.List.LinkedListDeque

/-!
# Going through a `List`

`begin`, `end`, `++` and `find` on the lists that pushes and `pop_back` make.
`end` of an empty list returns an iterator whose pointer is whatever the storage
held before.
-/

namespace CppProjects

open CInt Program

namespace LinkedList

variable {ι α : Type}

/-- The pointer of an iterator, where storage that was never initialised holds
`content`. -/
def Iterator.pointer (content : Option ℕ) (it : Iterator) : Option ℕ := it.mPointer.getD content

/-- A turn of a loop that goes on until `end()`: it visits the node at the iterator,
which it then increments. -/
def visitTurn (content : Option ℕ) (v : ι) :
    List α × Option ℕ → M ι α (Option (List α × Option ℕ))
  | (visited, pointer) => do
      let last ← end' v
      if pointer = last.pointer content then return none
      else
        let node ← deref pointer
        return some (visited ++ [node.value], node.next)

/-- The values that are visited from `begin()` on. -/
def traverse (content : Option ℕ) (v : ι) : M ι α (List α) := do
  let first ← begin' v
  let (visited, _) ← loop (visitTurn content v) maxSteps ([], first.pointer content)
  return visited

variable {s : Store ι α} {v : ι} {items : ι → List (ℕ × α)} {front back : List (ℕ × α)} {x : α}
  {arg : Arg α} {content : Option ℕ}

/-! ## Traversal -/

/-- `end()` is null for a list with nodes, and for an empty one if the storage
happens to hold null. -/
theorem returns_end_null (hinv : Inv s items) (hplace : items v ≠ [] ∨ content = none) :
    ∃ last, Returns (end' v) s last s ∧ last.pointer content = none := by
  by_cases hnil : items v = []
  · exact ⟨_, returns_finish_nil ((hinv.holds v).mSize_eq_zero.mpr hnil),
      hplace.resolve_left (not_not.mpr hnil)⟩
  · exact ⟨_, returns_end hinv hnil, rfl⟩

/-- The loop from the node behind `front` on. -/
theorem traverse_loop {last : Iterator} (hinv : Inv s items) (hend : Returns (end' v) s last s)
    (hlast : last.pointer content = none) {fuel : ℕ} (front : List (ℕ × α))
    (hitems : items v = front ++ back) (hfuel : back.length < fuel) :
    Returns (loop (visitTurn content v) fuel (front.map Prod.snd, (back.map Prod.fst).head?)) s
      ((items v).map Prod.snd, none) s := by
  obtain ⟨fuel, rfl⟩ : ∃ rest, fuel = rest + 1 := ⟨fuel - 1, by omega⟩
  induction back generalizing front fuel with
  | nil =>
      rw [List.append_nil] at hitems
      rw [hitems, List.map_nil, List.head?_nil]
      refine Returns.loop_exit (hend.bind ?_)
      rw [if_pos hlast.symm]
      exact returns_pure _ s
  | cons item back ih =>
      rw [List.length_cons] at hfuel
      obtain ⟨fuel, rfl⟩ : ∃ rest, fuel = rest + 1 := ⟨fuel - 1, by omega⟩
      have hnode := hinv.nodes_eq front hitems
      rw [List.append_cons] at hitems
      have hloop := ih (front ++ [item]) hitems fuel (by omega)
      rw [List.map_append] at hloop
      refine Returns.loop_next (hend.bind ?_) hloop
      rw [hlast, if_neg (by simp)]
      exact (returns_deref hnode).bind (returns_pure _ s)

theorem length_lt_maxSteps (hinv : Inv s items) (v : ι) : (items v).length < maxSteps := by
  have hsmall := (hinv.holds v).small
  rw [maxSteps]
  omega

/-- Every value is visited once, in order. -/
theorem returns_traverse (hinv : Inv s items) (hplace : items v ≠ [] ∨ content = none) :
    Returns (traverse content v) s ((items v).map Prod.snd) s := by
  obtain ⟨last, hend, hlast⟩ := returns_end_null hinv hplace
  have hloop := traverse_loop hinv hend hlast [] rfl (length_lt_maxSteps hinv v)
  rw [← (hinv.holds v).head] at hloop
  exact (returns_begin rfl).bind (hloop.bind (returns_pure _ s))

/-- A loop over an empty list follows null if the storage holds anything else. -/
theorem traverse_stuck (hinv : Inv s items) (hnil : items v = []) (hcontent : content ≠ none) :
    Stuck (traverse content v) s := by
  have hholds := hinv.holds v
  rw [hnil] at hholds
  have hhead : (s.lists v).mHead = none := hholds.head
  refine (returns_begin rfl).bind_stuck (Stuck.bind (Stuck.loop ?_))
  refine (returns_finish_nil (hholds.mSize_eq_zero.mpr rfl)).bind_stuck ?_
  rw [hhead, if_neg (fun heq => hcontent heq.symm)]
  exact (stuck_deref rfl).bind

/-! ## Searching -/

variable [DecidableEq α]

/-- `find` stops at the first node that has the value. -/
theorem find_loop (hinv : Inv s items) (harg : Arg.Denotes items x arg) {fuel : ℕ}
    (front : List (ℕ × α)) (hitems : items v = front ++ back) (hfuel : back.length < fuel) :
    Returns (loop (fun pointer => do
      if pointer = none then return none
      else
        let node ← deref pointer
        if node.value = (← arg.fetch) then return none
        else return some node.next) fuel (back.map Prod.fst).head?) s
      ((back.dropWhile (·.2 ≠ x)).map Prod.fst).head? s := by
  obtain ⟨fuel, rfl⟩ : ∃ rest, fuel = rest + 1 := ⟨fuel - 1, by omega⟩
  induction back generalizing front fuel with
  | nil =>
      refine Returns.loop_exit ?_
      rw [List.map_nil, List.head?_nil, if_pos rfl]
      exact returns_pure _ s
  | cons item back ih =>
      rw [List.length_cons] at hfuel
      obtain ⟨fuel, rfl⟩ : ∃ rest, fuel = rest + 1 := ⟨fuel - 1, by omega⟩
      have hnode := hinv.nodes_eq front hitems
      have hfetch := hinv.returns_fetch harg (t := s) rfl
      by_cases hitem : item.2 = x
      · rw [List.dropWhile_cons_of_neg (by simpa using hitem)]
        refine Returns.loop_exit ?_
        rw [if_neg (by simp)]
        refine (returns_deref hnode).bind (hfetch.bind ?_)
        rw [if_pos hitem]
        exact returns_pure _ s
      · rw [List.dropWhile_cons_of_pos (by simpa using hitem)]
        rw [List.append_cons] at hitems
        refine Returns.loop_next ?_ (ih _ hitems fuel (by omega))
        rw [if_neg (by simp)]
        refine (returns_deref hnode).bind (hfetch.bind ?_)
        rw [if_neg hitem]
        exact returns_pure _ s

theorem dropWhile_eq_drop_idxOf (back : List (ℕ × α)) :
    back.dropWhile (·.2 ≠ x) = back.drop ((back.map Prod.snd).idxOf x) := by
  induction back with
  | nil => rfl
  | cons item back ih =>
      by_cases hitem : item.2 = x
      · rw [List.dropWhile_cons_of_neg (by simpa using hitem), List.map_cons, hitem,
          List.idxOf_cons_self, List.drop_zero]
      · rw [List.dropWhile_cons_of_pos (by simpa using hitem), List.map_cons,
          List.idxOf_cons_ne _ hitem, List.drop_succ_cons, ih]

theorem returns_find (hinv : Inv s items) (harg : Arg.Denotes items x arg) :
    Returns (find v arg) s
      ⟨some (((items v).drop (((items v).map Prod.snd).idxOf x)).map Prod.fst).head?⟩ s := by
  have hloop := find_loop hinv harg [] rfl (length_lt_maxSteps hinv v)
  rw [dropWhile_eq_drop_idxOf, ← (hinv.holds v).head] at hloop
  exact (returns_self rfl).bind (hloop.bind (returns_pure _ s))

omit [DecidableEq α] in
theorem head?_drop_eq_none (back : List (ℕ × α)) (i : ℕ) :
    ((back.drop i).map Prod.fst).head? = none ↔ back.length ≤ i := by
  rw [List.head?_eq_none_iff, List.map_eq_nil_iff, List.drop_eq_nil_iff]

/-! ## Runs -/

/-- A loop from `begin()` to `end()` visits the elements, as many as `size()`
says, and `find` returns `end()` for a value that does not occur and the position
of its first occurrence for one that does. -/
structure Navigates (s : Store ι α) (sequences : ι → List α) (v : ι) (content : Option ℕ) :
    Prop where
  size : (s.lists v).mSize = (sequences v).length
  visits : Returns (traverse content v) s (sequences v) s
  finds : ∀ (value : Value ι α) (x : α), value.denote sequences = some x →
    ∃ it last, Returns (do
        let arg ← value.pass
        find v arg) s it s ∧
      Returns (end' v) s last s ∧ (it.pointer content = last.pointer content ↔ x ∉ sequences v) ∧
      (x ∈ sequences v → Returns ((Position.at ((sequences v).idxOf x)).pass v) s it s)

theorem Inv.navigates (hinv : Inv s items) (hplace : items v ≠ [] ∨ content = none) :
    Navigates s (valuesOf items) v content where
  size := by rw [(hinv.holds v).size, length_valuesOf]
  visits := returns_traverse hinv hplace
  finds := by
    intro value x hvalue
    obtain ⟨arg, hpasses, hpass⟩ := returns_pass_denote hinv hvalue
    obtain ⟨last, hend, hlast⟩ := returns_end_null hinv hplace
    refine ⟨_, last, hpass.bind (returns_find hinv hpasses.denotes), hend, ?_, fun hmem => ?_⟩
    · rw [hlast, ← List.idxOf_lt_length_iff, not_lt, length_valuesOf]
      exact head?_drop_eq_none _ _
    · refine returns_at hinv ?_
      have hlt := List.idxOf_lt_length_of_mem hmem
      rw [length_valuesOf] at hlt
      exact hlt.le

variable [DecidableEq ι] [Inhabited α]

/-- What pushes and `pop_back` make, as long as they return. -/
theorem inv_of_builds {visited : List (Session ι α × Op ι α)} {session : Session ι α}
    (hrun : deque.Run visited session) (hbuilds : ∀ taken ∈ visited, taken.2.Builds)
    (hstore : session.store = some s) :
    ∃ items, Inv s items ∧ session.sequences = valuesOf items := by
  have hstates := hrun.forall_of_forall_not (B := fun _ op => ¬ op.Builds)
    (Q := fun session => ∀ s, session.store = some s →
      ∃ items, Inv s items ∧ session.sequences = valuesOf items) ?_ ?_
    fun taken hmem => not_not.mpr (hbuilds taken hmem)
  · exact hstates.2 s hstore
  · rintro _ rfl s hs
    obtain rfl := Option.some.inj hs
    exact ⟨_, inv_start, rfl⟩
  · rintro session op session' hbefore hstep hop s' hs'
    rw [not_not] at hop
    obtain ⟨sequences, hends, rfl⟩ := Option.map_eq_some_iff.mp hstep
    obtain ⟨s, hs, hresult⟩ := Option.bind_eq_some_iff.mp hs'
    obtain ⟨items, hinv, hsequences⟩ := hbefore s hs
    rw [hsequences] at hends
    have hcall := result_eq_some.mp hresult
    obtain ⟨t, items', hcall', hinv', hsequences'⟩ :=
      atEnds_keeps hinv hends (builds_not_spoils hop hinv hends hcall)
    obtain ⟨-, rfl⟩ := hcall.unique hcall'
    exact ⟨items', hinv', hsequences'⟩

/-- Loops and searches work on every list with elements, and on an empty one if the
storage of the iterators that `end()` returns happens to hold null. -/
theorem navigates_iff {visited : List (Session ι α × Op ι α)} {session : Session ι α}
    (hrun : deque.Run visited session) (hbuilds : ∀ taken ∈ visited, taken.2.Builds)
    (hstore : session.store = some s) (v : ι) (content : Option ℕ) :
    Navigates s session.sequences v content ↔ session.sequences v ≠ [] ∨ content = none := by
  obtain ⟨items, hinv, hsequences⟩ := inv_of_builds hrun hbuilds hstore
  have hnil : valuesOf items v = [] ↔ items v = [] := List.map_eq_nil_iff
  rw [hsequences, Ne, hnil]
  constructor
  · intro hnavigates
    by_contra hempty
    rw [not_or, not_not] at hempty
    exact (traverse_stuck hinv hempty.1 hempty.2).not_returns hnavigates.visits
  · exact hinv.navigates

/-- A run of one `push_back`. -/
theorem navigates_iff_pushBack : ∃ (s : Store Unit ℕ) (session : Session Unit ℕ),
    deque.Run [(⟨some start, fun _ => []⟩, .pushBack () (.const 5))] session ∧
      session.store = some s ∧ ∀ content, Navigates s session.sequences () content := by
  obtain ⟨s, items, hstep, hinv, hsequences⟩ :=
    deque_step (.pushBack () (.const 5)) (inv_start (ι := Unit) (α := ℕ)) rfl fun hlarge =>
      absurd (show 2 ^ 31 ≤ 0 + 1 from hlarge) (by decide)
  have hrun := TransitionSystem.Run.step (.initial rfl) hstep
  refine ⟨s, _, hrun, rfl, fun content => (navigates_iff hrun ?_ rfl () content).mpr (.inl ?_)⟩
  · intro taken htaken
    obtain rfl := List.mem_singleton.mp htaken
    trivial
  · change valuesOf items () ≠ []
    rw [← hsequences]
    exact List.cons_ne_nil 5 []

/-- An empty list, with anything but null in the storage. -/
theorem empty_not_navigates : deque.Run [] (⟨some start, fun _ => []⟩ : Session Unit ℕ) ∧
    ¬ Navigates (start : Store Unit ℕ) (fun _ => []) () (some 0) :=
  ⟨.initial rfl, fun hnavigates =>
    (traverse_stuck inv_start rfl (by simp)).not_returns hnavigates.visits⟩

end LinkedList

end CppProjects
