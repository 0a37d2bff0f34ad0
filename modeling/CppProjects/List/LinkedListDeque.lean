import CppProjects.List.LinkedListRuns

/-!
# `List` as a deque

Any number of lists beside the sequences they stand for, and any calls that work
at their ends.  The lists go on agreeing with the sequences as long as no call
is one of those that spoil them.
-/

namespace CppProjects

open CInt Program

namespace LinkedList

variable {ι α : Type}

/-! ## Sequences -/

/-- The value an operation is given. -/
def Value.denote (sequences : ι → List α) : Value ι α → Option α
  | .const value => some value
  | .element w index => (sequences w)[index]?

/-- The sequences after an operation at the ends; no other operation is one on a
deque.  A count is an `int`, and a negative one pushes nothing. -/
def Op.atEnds [DecidableEq ι] (sequences : ι → List α) : Op ι α → Option (ι → List α)
  | .pushFront v value => do
      let x ← value.denote sequences
      return Function.update sequences v (x :: sequences v)
  | .pushBack v value => do
      let x ← value.denote sequences
      return Function.update sequences v (sequences v ++ [x])
  | .popFront v => some (Function.update sequences v (sequences v).tail)
  | .popBack v => some (Function.update sequences v (sequences v).dropLast)
  | .clear v => some (Function.update sequences v [])
  | .assign v n value => do
      let x ← value.denote sequences
      if FitsInt n then return Function.update sequences v (List.replicate n.toNat x) else none
  | .insert _ _ _ _ | .insertOne _ _ _ | .erase _ _ | .eraseRange _ _ _ | .remove _ _
  | .resize _ _ | .merge _ _ | .swap _ _ | .reserve _ => none

/-- The lists of a program beside the sequences they stand for.  There is no
store once an operation has had no outcome. -/
structure Session (ι α : Type) where
  store : Option (Store ι α)
  sequences : ι → List α

/-- Operations at the ends of lists, in any order, on lists that are empty at
first. -/
def deque [DecidableEq ι] [DecidableEq α] [Inhabited α] :
    TransitionSystem (Session ι α) (Op ι α) where
  initial session := session = ⟨some start, fun _ => []⟩
  step session op :=
    (op.atEnds session.sequences).map fun sequences => ⟨session.store.bind op.result, sequences⟩

/-- What is read from a list: its values from `m_head` on, `front()` and
`back()`. -/
structure Shows (s : Store ι α) (v : ι) (xs : List α) : Prop where
  contents : Contents s v xs
  front : ∀ x ∈ xs.head?, Returns (front v) s x s
  back : ∀ x ∈ xs.getLast?, Returns (back v) s x s
  empty : xs = [] → Throws (LinkedList.front v) s .outOfRange s ∧
    Throws (LinkedList.back v) s .outOfRange s

/-- Nothing has gone wrong, and every list shows its sequence. -/
def Session.Agrees (session : Session ι α) : Prop :=
  ∃ s, session.store = some s ∧ ∀ v, Shows s v (session.sequences v)

/-- The operations after which a list does not show its sequence. -/
def Op.Spoils (sequences : ι → List α) : Op ι α → Prop
  | .pushFront v _ | .pushBack v _ => 2 ^ 31 ≤ (sequences v).length + 1
  | .popFront v => 2 ≤ (sequences v).length
  | .assign v n value => 0 < n ∧ ∃ i, value = .element v i
  | _ => False

/-- `push_front`, `push_back` and `pop_back`. -/
def Op.Builds : Op ι α → Prop
  | .pushFront _ _ | .pushBack _ _ | .popBack _ => True
  | _ => False

/-! ## Reading the ends -/

section Reading

variable {s : Store ι α} {v : ι} {items : ι → List (ℕ × α)} {sequences : ι → List α}
  {value : Value ι α} {x : α}

theorem returns_front (hinv : Inv s items) {item : ℕ × α} {rest : List (ℕ × α)}
    (hitems : items v = item :: rest) : Returns (front v) s item.2 s := by
  have hholds := hinv.holds v
  have hnonzero : (s.lists v).mSize ≠ 0 := fun hzero => by
    rw [hholds.mSize_eq_zero.mp hzero] at hitems
    cases hitems
  have hhead : (s.lists v).mHead = some item.1 := by
    rw [hholds.head, hitems]
    rfl
  refine (returns_self rfl).bind ?_
  rw [if_neg hnonzero, hhead]
  exact (returns_deref (hinv.nodes_eq [] hitems)).bind (returns_pure _ s)

theorem returns_back (hinv : Inv s items) {front : List (ℕ × α)} {item : ℕ × α}
    (hitems : items v = front ++ [item]) : Returns (back v) s item.2 s := by
  have hholds := hinv.holds v
  have hnonzero : (s.lists v).mSize ≠ 0 := fun hzero => by
    rw [hholds.mSize_eq_zero.mp hzero] at hitems
    simp at hitems
  have htail : (s.lists v).mTail = some item.1 := by
    rw [hholds.tail, hitems]
    simp
  refine (returns_self rfl).bind ?_
  rw [if_neg hnonzero, htail]
  exact (returns_deref (hinv.nodes_eq front hitems)).bind (returns_pure _ s)

theorem throws_of_nil (hinv : Inv s items) (hitems : items v = []) :
    Throws (front v) s .outOfRange s ∧ Throws (back v) s .outOfRange s := by
  have hzero := (hinv.holds v).mSize_eq_zero.mpr hitems
  constructor
  · refine (returns_self rfl).bind_throws ?_
    rw [if_pos hzero]
    rfl
  · refine (returns_self rfl).bind_throws ?_
    rw [if_pos hzero]
    rfl

theorem Inv.shows (hinv : Inv s items) (v : ι) : Shows s v ((items v).map Prod.snd) where
  contents := contents_of_inv hinv v
  front := by
    intro x hx
    cases hitems : items v with
    | nil => simp [hitems] at hx
    | cons item rest =>
        obtain rfl : item.2 = x := by simpa [hitems] using hx
        exact returns_front hinv hitems
  back := by
    intro x hx
    rcases (items v).eq_nil_or_concat with hitems | ⟨front, item, hitems⟩
    · simp [hitems] at hx
    · rw [List.concat_eq_append] at hitems
      obtain rfl : item.2 = x := by simpa [hitems] using hx
      exact returns_back hinv hitems
  empty := fun hnil => throws_of_nil hinv (List.map_eq_nil_iff.mp hnil)

/-- The values of the nodes, list by list. -/
def valuesOf (items : ι → List (ℕ × α)) : ι → List α := List.map Prod.snd ∘ items

theorem length_valuesOf (v : ι) : (valuesOf items v).length = (items v).length :=
  List.length_map _

theorem valid_of_denote (hinv : Inv s items) (hvalue : value.denote (valuesOf items) = some x) :
    value.Valid s := by
  cases value with
  | const => trivial
  | element w i =>
      have hlt := (List.getElem?_eq_some_iff.mp hvalue).1
      rw [valuesOf, Function.comp_apply, List.length_map] at hlt
      rw [Value.Valid, (hinv.holds w).size]
      exact_mod_cast hlt

/-- The argument that is passed has the value the sequences give. -/
theorem returns_pass_denote (hinv : Inv s items) (hvalue : value.denote (valuesOf items) = some x) :
    ∃ arg, Passes items value x arg ∧ Returns value.pass s arg s := by
  obtain ⟨y, arg, hpasses, hpass⟩ := returns_pass hinv (valid_of_denote hinv hvalue)
  have hxy : y = x := by
    cases hpasses with
    | const => exact Option.some.inj hvalue
    | element hget =>
        rw [Value.denote, valuesOf, Function.comp_apply, List.getElem?_map, hget] at hvalue
        exact Option.some.inj hvalue
  exact ⟨arg, hxy ▸ hpasses, hpass⟩

end Reading

/-! ## Steps -/

section Steps

variable [DecidableEq ι] {s s' : Store ι α} {v : ι} {items : ι → List (ℕ × α)} {new : List (ℕ × α)}
  {sequences : ι → List α}

theorem valuesOf_update :
    valuesOf (Function.update items v new) =
      Function.update (valuesOf items) v (new.map Prod.snd) :=
  Function.comp_update ..

/-- A negative count is like zero. -/
theorem assign_toNat (v : ι) (n : ℤ) (arg : Arg α) :
    (assign v n.toNat arg : M ι α Unit) = assign v n arg := by
  rw [assign, assign, Int.toNat_natCast]

variable [DecidableEq α] [Inhabited α]

/-- An operation that spoils nothing does to the lists what it does to the
sequences. -/
theorem atEnds_keeps {op : Op ι α} (hinv : Inv s items)
    (hop : op.atEnds (valuesOf items) = some sequences) (hok : ¬ op.Spoils (valuesOf items)) :
    ∃ s' items', Returns op.call s () s' ∧ Inv s' items' ∧ sequences = valuesOf items' := by
  cases op with
  | pushFront v value =>
      obtain ⟨x, hx, hop⟩ := Option.bind_eq_some_iff.mp hop
      obtain ⟨arg, hpasses, hpass⟩ := returns_pass_denote hinv hx
      rw [Op.Spoils, length_valuesOf, not_le] at hok
      obtain ⟨s', hcall, hs'⟩ := pushFront_spec (v := v) hinv hpasses.denotes hok
      refine ⟨s', _, hpass.bind hcall, hs', ?_⟩
      rw [valuesOf_update, ← Option.some.inj hop]
      rfl
  | pushBack v value =>
      obtain ⟨x, hx, hop⟩ := Option.bind_eq_some_iff.mp hop
      obtain ⟨arg, hpasses, hpass⟩ := returns_pass_denote hinv hx
      rw [Op.Spoils, length_valuesOf, not_le] at hok
      obtain ⟨s', hcall, hs'⟩ := pushBack_spec (v := v) hinv hpasses.denotes hok
      refine ⟨s', _, hpass.bind hcall, hs', ?_⟩
      rw [valuesOf_update, ← Option.some.inj hop, List.map_append]
      rfl
  | popFront v =>
      obtain rfl := Option.some.inj hop
      rw [Op.Spoils, length_valuesOf, not_le] at hok
      match hitems : items v with
      | [] =>
          refine ⟨s, items, popFront_nil hinv hitems, hinv, ?_⟩
          rw [valuesOf, Function.comp_apply, hitems, ← valuesOf]
          exact Function.update_eq_self_iff.mpr (by rw [valuesOf, Function.comp_apply, hitems]; rfl)
      | [node] =>
          obtain ⟨s', hcall, hs'⟩ := popFront_singleton hinv hitems
          refine ⟨s', _, hcall, hs', ?_⟩
          rw [valuesOf_update, valuesOf, Function.comp_apply, hitems]
          rfl
      | node :: second :: rest =>
          rw [hitems, List.length_cons, List.length_cons] at hok
          omega
  | popBack v =>
      obtain rfl := Option.some.inj hop
      obtain ⟨s', hcall, hs', -⟩ := popBack_spec hinv v
      refine ⟨s', _, hcall, hs', ?_⟩
      rw [valuesOf_update, List.map_dropLast]
      rfl
  | clear v =>
      obtain rfl := Option.some.inj hop
      obtain ⟨s', hcall, hs', -⟩ := clear_spec hinv v
      refine ⟨s', _, hcall, hs', ?_⟩
      rw [valuesOf_update]
      rfl
  | assign v n value =>
      obtain ⟨x, hx, hop⟩ := Option.bind_eq_some_iff.mp hop
      obtain ⟨arg, hpasses, hpass⟩ := returns_pass_denote hinv hx
      split_ifs at hop with hfits
      have hhigh := hfits.2
      rcases Nat.eq_zero_or_pos n.toNat with hzero | hpositive
      · obtain ⟨s', hclear, hs', -⟩ := clear_spec hinv v
        refine ⟨s', _, hpass.bind ?_, hs', ?_⟩
        · rw [assign, hzero]
          exact hclear.bind (returns_pure () s')
        · rw [valuesOf_update, ← Option.some.inj hop, hzero]
          rfl
      · have hother : ¬ ∃ i, value = .element v i := fun h => hok ⟨by omega, h⟩
        obtain ⟨s', hcall, added, hadded, hs'⟩ := assign_spec (v := v) (n := n.toNat) hinv
          (by omega) (hpasses.denotes_update hother [])
        rw [assign_toNat] at hcall
        refine ⟨s', _, hpass.bind hcall, hs', ?_⟩
        rw [valuesOf_update, ← Option.some.inj hop, hadded]
  | insert v pos n value => cases hop
  | insertOne v pos value => cases hop
  | erase v pos => cases hop
  | eraseRange v first last => cases hop
  | remove v value => cases hop
  | resize v n => cases hop
  | merge v w => cases hop
  | swap v w => cases hop
  | reserve v => cases hop

/-- A push that returns has not spoiled a list, and `pop_back` never does. -/
theorem builds_not_spoils {op : Op ι α} {u : Unit} (hbuilds : op.Builds) (hinv : Inv s items)
    (hop : op.atEnds (valuesOf items) = some sequences) (hcall : Returns op.call s u s') :
    ¬ op.Spoils (valuesOf items) := by
  cases op with
  | pushFront v value =>
      obtain ⟨x, hx, -⟩ := Option.bind_eq_some_iff.mp hop
      have hsmall := Grows.not_large (pushFront_grows v) hinv (valid_of_denote hinv hx) hcall
      rw [(hinv.holds v).size, ← length_valuesOf] at hsmall
      exact_mod_cast hsmall
  | pushBack v value =>
      obtain ⟨x, hx, -⟩ := Option.bind_eq_some_iff.mp hop
      have hsmall := Grows.not_large (pushBack_grows v) hinv (valid_of_denote hinv hx) hcall
      rw [(hinv.holds v).size, ← length_valuesOf] at hsmall
      exact_mod_cast hsmall
  | popBack v => exact id
  | popFront v => exact hbuilds.elim
  | clear v => exact hbuilds.elim
  | assign v n value => exact hbuilds.elim
  | insert v pos n value => exact hbuilds.elim
  | insertOne v pos value => exact hbuilds.elim
  | erase v pos => exact hbuilds.elim
  | eraseRange v first last => exact hbuilds.elim
  | remove v value => exact hbuilds.elim
  | resize v n => exact hbuilds.elim
  | merge v w => exact hbuilds.elim
  | swap v w => exact hbuilds.elim
  | reserve v => exact hbuilds.elim

/-- After an operation that spoils a list there is no store, or the list cannot
be read. -/
theorem atEnds_spoils {op : Op ι α} {u : Unit} (hinv : Inv s items)
    (hop : op.atEnds (valuesOf items) = some sequences) (hspoils : op.Spoils (valuesOf items))
    (hcall : Returns op.call s u s') : ∃ v, ∀ xs, ¬ Contents s' v xs := by
  cases op with
  | pushFront v value => exact absurd hspoils (builds_not_spoils trivial hinv hop hcall)
  | pushBack v value => exact absurd hspoils (builds_not_spoils trivial hinv hop hcall)
  | popFront v =>
      rw [Op.Spoils, length_valuesOf] at hspoils
      match hitems : items v with
      | [] | [node] =>
          rw [hitems] at hspoils
          exact absurd hspoils (by simp)
      | node :: second :: rest =>
          obtain ⟨hhead, hdead⟩ := popFront_dangling hinv hitems hcall
          refine ⟨v, ?_⟩
          rintro xs ⟨addrs, hwalk, -⟩
          rw [hhead] at hwalk
          cases hwalk with
          | step hfollow _ => exact hdead (LinkedHeap.live_of_map hfollow)
  | assign v n value =>
      obtain ⟨hpositive, i, rfl⟩ := hspoils
      obtain ⟨x, hx, -⟩ := Option.bind_eq_some_iff.mp hop
      obtain ⟨arg, hpasses, hpass⟩ := returns_pass_denote hinv hx
      obtain ⟨_, s₁, hpass', hassign⟩ := hcall.bind_inv
      obtain ⟨rfl, rfl⟩ := hpass'.unique hpass
      rw [← assign_toNat] at hassign
      cases hpasses with
      | element hget =>
          have haddr := List.mem_map_of_mem (f := Prod.fst) (List.mem_of_getElem? hget)
          exact absurd hassign (assign_stuck hinv haddr (by omega)).not_returns
  | popBack v => exact hspoils.elim
  | clear v => exact hspoils.elim
  | insert v pos n value => exact hspoils.elim
  | insertOne v pos value => exact hspoils.elim
  | erase v pos => exact hspoils.elim
  | eraseRange v first last => exact hspoils.elim
  | remove v value => exact hspoils.elim
  | resize v n => exact hspoils.elim
  | merge v w => exact hspoils.elim
  | swap v w => exact hspoils.elim
  | reserve v => exact hspoils.elim

end Steps

/-! ## Runs -/

section Runs

variable [DecidableEq ι] [DecidableEq α] [Inhabited α]

theorem deque_step {s : Store ι α} {items : ι → List (ℕ × α)} {sequences : ι → List α}
    (op : Op ι α) (hinv : Inv s items) (hop : op.atEnds (valuesOf items) = some sequences)
    (hok : ¬ op.Spoils (valuesOf items)) :
    ∃ s' items', deque.step ⟨some s, valuesOf items⟩ op = some ⟨some s', valuesOf items'⟩ ∧
      Inv s' items' ∧ sequences = valuesOf items' := by
  obtain ⟨s', items', hcall, hinv', rfl⟩ := atEnds_keeps hinv hop hok
  refine ⟨s', items', ?_, hinv', rfl⟩
  change (op.atEnds (valuesOf items)).map _ = _
  rw [hop, Option.map_some, Option.bind_some, result_eq_some.mpr hcall]

/-- The runs in which every list shows its sequence throughout are those without
a call that spoils a list: a `pop_front` where more than one element is left, an
`assign` of an element of the list itself, and a push that the size cannot
count. -/
theorem deque_agrees_iff {visited : List (Session ι α × Op ι α)} {session : Session ι α}
    (hrun : deque.Run visited session) :
    ((∀ before ∈ visited, before.1.Agrees) ∧ session.Agrees) ↔
      ∀ taken ∈ visited, ¬ taken.2.Spoils taken.1.sequences := by
  refine hrun.forall_iff (P := Session.Agrees)
    (B := fun session op => op.Spoils session.sequences)
    (Q := fun session => ∃ s items, session = ⟨some s, valuesOf items⟩ ∧ Inv s items) ?_ ?_ ?_ ?_
  · rintro _ ⟨s, items, rfl, hinv⟩
    exact ⟨s, rfl, hinv.shows⟩
  · rintro _ rfl
    exact ⟨start, fun _ => [], rfl, inv_start⟩
  · rintro _ op session' ⟨s, items, rfl, hinv⟩ hstep hok
    obtain ⟨sequences, hop, -⟩ := Option.map_eq_some_iff.mp hstep
    obtain ⟨s', items', hstep', hinv', -⟩ := deque_step op hinv hop hok
    exact ⟨s', items', Option.some.inj (hstep.symm.trans hstep'), hinv'⟩
  · rintro _ op session' ⟨s, items, rfl, hinv⟩ hstep hspoils
    obtain ⟨sequences, hop, rfl⟩ := Option.map_eq_some_iff.mp hstep
    rintro ⟨s', hstore, hshows⟩
    obtain ⟨v, hunread⟩ := atEnds_spoils hinv hop hspoils (result_eq_some.mp hstore)
    exact hunread _ (hshows v).contents

/-- A run of one `push_back`. -/
theorem deque_agrees_iff_pushBack :
    ∃ session : Session Bool ℕ, deque.Run [(⟨some start, fun _ => []⟩, .pushBack true (.const 5))]
      session ∧ session.Agrees ∧ session.sequences true = [5] := by
  have hstep : deque.step (⟨some start, fun _ => []⟩ : Session Bool ℕ) (.pushBack true (.const 5)) =
      some ⟨(Op.pushBack true (.const 5)).result start, Function.update (fun _ => []) true [5]⟩ := rfl
  have hrun := TransitionSystem.Run.step (.initial rfl) hstep
  refine ⟨_, hrun, ((deque_agrees_iff hrun).mpr ?_).2, rfl⟩
  intro taken htaken
  obtain rfl := List.mem_singleton.mp htaken
  exact fun hlarge => absurd (show 2 ^ 31 ≤ 0 + 1 from hlarge) (by decide)

/-- Two elements are pushed and the first is popped. -/
theorem deque_disagrees :
    ¬ ∀ (visited : List (Session Unit ℕ × Op Unit ℕ)) session,
      deque.Run visited session → session.Agrees := by
  intro hall
  have hstart : (⟨some start, fun _ => []⟩ : Session Unit ℕ) = ⟨some start, valuesOf fun _ => []⟩ := rfl
  obtain ⟨s₁, items₁, hfirst, hinv₁, hitems₁⟩ :=
    deque_step (.pushBack () (.const 1)) inv_start rfl fun hlarge =>
      absurd (show 2 ^ 31 ≤ 0 + 1 from hlarge) (by decide)
  have hone : (valuesOf items₁ ()).length = 1 := by
    rw [← hitems₁]
    rfl
  obtain ⟨s₂, items₂, hsecond, hinv₂, hitems₂⟩ :=
    deque_step (.pushBack () (.const 2)) hinv₁ rfl fun hlarge => by
      rw [Op.Spoils, hone] at hlarge
      exact absurd hlarge (by decide)
  have hspoils : Op.Spoils (valuesOf items₂) (.popFront () : Op Unit ℕ) := by
    rw [Op.Spoils, ← hitems₂, Function.update_self, List.length_append, hone]
    rfl
  have hthird : deque.step ⟨some s₂, valuesOf items₂⟩ (.popFront ()) =
      some ⟨(Op.popFront ()).result s₂, _⟩ := rfl
  obtain ⟨s', hstore, hshows⟩ :=
    hall _ _ ((((TransitionSystem.Run.initial hstart.symm).step hfirst).step hsecond).step hthird)
  obtain ⟨v, hunread⟩ := atEnds_spoils hinv₂ rfl hspoils (result_eq_some.mp hstore)
  exact hunread _ (hshows v).contents

end Runs

end LinkedList

end CppProjects
