import CppProjects.Core.TransitionSystem
import CppProjects.List.LinkedListBreaks

/-!
# Runs of `List` operations

Any number of lists, and any sequence of operations with valid iterators and
counts.  The lists stay well formed as long as no operation is one of those that
break them.
-/

namespace CppProjects

open CInt Program

namespace LinkedList

variable {ι α : Type}

/-- A value given to an operation: one of the program's own, or an element of a
list. -/
inductive Value (ι α : Type)
  | const (value : α)
  | element (w : ι) (index : ℕ)
deriving DecidableEq, Repr

/-- `begin() + index`, or `end()`. -/
inductive Position
  | at (index : ℕ)
  | finish
deriving DecidableEq, Repr

inductive Op (ι α : Type)
  | pushFront (v : ι) (value : Value ι α)
  | pushBack (v : ι) (value : Value ι α)
  | popFront (v : ι)
  | popBack (v : ι)
  | insert (v : ι) (pos : Position) (n : ℤ) (value : Value ι α)
  | insertOne (v : ι) (pos : Position) (value : Value ι α)
  | erase (v : ι) (pos : Position)
  | eraseRange (v : ι) (first last : Position)
  | remove (v : ι) (value : Value ι α)
  | resize (v : ι) (n : ℤ)
  | assign (v : ι) (n : ℤ) (value : Value ι α)
  | merge (v w : ι)
  | swap (v w : ι)
  | reserve (v : ι)
  | clear (v : ι)
deriving DecidableEq, Repr

/-- The reference that is passed for a value. -/
def Value.pass : Value ι α → M ι α (Arg α)
  | .const value => pure (.temp value)
  | .element w index => do
      let first ← begin' w
      let it ← first.plus index
      let p ← defined it.mPointer
      let addr ← defined p
      return .node addr

def Position.pass (v : ι) : Position → M ι α Iterator
  | .at index => do
      let first ← begin' v
      first.plus index
  | .finish => end' v

variable [DecidableEq ι] [DecidableEq α] [Inhabited α]

/-- An operation as the program calls it. -/
def Op.call : Op ι α → M ι α Unit
  | .pushFront v value => do
      let arg ← value.pass
      LinkedList.pushFront v arg
  | .pushBack v value => do
      let arg ← value.pass
      LinkedList.pushBack v arg
  | .popFront v => LinkedList.popFront v
  | .popBack v => LinkedList.popBack v
  | .insert v pos n value => do
      let arg ← value.pass
      let it ← pos.pass v
      let _ ← LinkedList.insert v it n arg
  | .insertOne v pos value => do
      let arg ← value.pass
      let it ← pos.pass v
      let _ ← LinkedList.insertOne v it arg
  | .erase v pos => do
      let it ← pos.pass v
      let _ ← LinkedList.erase v it
  | .eraseRange v first last => do
      let it ← first.pass v
      let it' ← last.pass v
      let _ ← LinkedList.eraseRange v it it'
  | .remove v value => do
      let arg ← value.pass
      LinkedList.remove v arg
  | .resize v n => LinkedList.resize v n
  | .assign v n value => do
      let arg ← value.pass
      LinkedList.assign v n arg
  | .merge v w => LinkedList.merge v w
  | .swap v w => LinkedList.swap v w
  | .reserve v => LinkedList.reserve v
  | .clear v => LinkedList.clear v

/-! ## Valid operations -/

section Valid

omit [DecidableEq ι] [DecidableEq α] [Inhabited α]

/-- How many elements stand before a position. -/
def Position.index (size : ℤ) : Position → ℤ
  | .at index => index
  | .finish => size

theorem Position.index_nonneg {size : ℤ} (hsize : 0 ≤ size) {pos : Position} :
    0 ≤ pos.index size := by
  cases pos with
  | «at» index => exact Int.natCast_nonneg index
  | finish => exact hsize

def Value.Valid (s : Store ι α) : Value ι α → Prop
  | .const _ => True
  | .element w index => index < (s.lists w).mSize

def Position.Valid (s : Store ι α) (v : ι) (pos : Position) : Prop :=
  pos.index (s.lists v).mSize ≤ (s.lists v).mSize

/-- A count: an `int` that is not negative. -/
def Count (n : ℤ) : Prop := 0 ≤ n ∧ n < 2 ^ 31

/-- Elements that exist, iterators into the list, and counts. -/
def Op.Valid (s : Store ι α) : Op ι α → Prop
  | .pushFront _ value | .pushBack _ value | .remove _ value => value.Valid s
  | .insert v pos n value => pos.Valid s v ∧ Count n ∧ value.Valid s
  | .insertOne v pos value => pos.Valid s v ∧ value.Valid s
  | .erase v pos => pos.Valid s v ∧ 0 < (s.lists v).mSize
  | .eraseRange v first last =>
      first.Valid s v ∧ last.Valid s v ∧
        first.index (s.lists v).mSize ≤ last.index (s.lists v).mSize
  | .resize _ n => Count n
  | .assign _ n value => Count n ∧ value.Valid s
  | .popFront _ | .popBack _ | .merge _ _ | .swap _ _ | .reserve _ | .clear _ => True

instance (s : Store ι α) (value : Value ι α) : Decidable (value.Valid s) :=
  match value with
  | .const _ => inferInstanceAs (Decidable True)
  | .element w index => inferInstanceAs (Decidable ((index : ℤ) < (s.lists w).mSize))

instance (s : Store ι α) (v : ι) (pos : Position) : Decidable (pos.Valid s v) :=
  inferInstanceAs (Decidable (_ ≤ _))

instance (n : ℤ) : Decidable (Count n) := inferInstanceAs (Decidable (_ ∧ _))

instance (s : Store ι α) (op : Op ι α) : Decidable (op.Valid s) :=
  match op with
  | .pushFront _ value | .pushBack _ value | .remove _ value =>
      inferInstanceAs (Decidable (value.Valid s))
  | .insert v pos n value =>
      inferInstanceAs (Decidable (pos.Valid s v ∧ Count n ∧ value.Valid s))
  | .insertOne v pos value => inferInstanceAs (Decidable (pos.Valid s v ∧ value.Valid s))
  | .erase v pos => inferInstanceAs (Decidable (pos.Valid s v ∧ 0 < (s.lists v).mSize))
  | .eraseRange v first last =>
      inferInstanceAs (Decidable (first.Valid s v ∧ last.Valid s v ∧
        first.index (s.lists v).mSize ≤ last.index (s.lists v).mSize))
  | .resize _ n => inferInstanceAs (Decidable (Count n))
  | .assign _ n value => inferInstanceAs (Decidable (Count n ∧ value.Valid s))
  | .popFront _ | .popBack _ | .merge _ _ | .swap _ _ | .reserve _ | .clear _ =>
      inferInstanceAs (Decidable True)

end Valid

/-! ## Runs -/

/-- The store an operation leads to when it returns. -/
def Op.result (op : Op ι α) (s : Store ι α) : Option (Store ι α) :=
  match op.call.run.run s with
  | some (.ok _, s') => some s'
  | some (.error _, _) | none => none

omit [DecidableEq ι] [DecidableEq α] [Inhabited α] in
def start : Store ι α := ⟨.empty, fun _ => ⟨none, none, 0⟩⟩

/-- Valid operations, in any order.  There is no store once an operation has had
no outcome. -/
def operations : TransitionSystem (Option (Store ι α)) (Op ι α) where
  initial state := state = some start
  step state op := state.bind fun s => if op.Valid s then some (op.result s) else none

/-- The size counts the nodes from `m_head` on, which end with null, and going
back from `m_tail` visits the same nodes in reverse. -/
def WellFormed (heap : LinkedHeap α) (this : LinkedList) : Prop :=
  ∃ addrs, LinkedHeap.Walk heap.nextAt this.mHead addrs ∧
    LinkedHeap.Walk heap.prevAt this.mTail addrs.reverse ∧ this.mSize = addrs.length

/-- Nothing has gone wrong, and every list is well formed. -/
def Sound (state : Option (Store ι α)) : Prop :=
  ∃ s, state = some s ∧ ∀ v, WellFormed s.heap (s.lists v)

/-! ## Operations that break a list -/

section Breaks

omit [DecidableEq ι] [Inhabited α]

/-- The values read from `m_head` on. -/
def Contents (s : Store ι α) (v : ι) (xs : List α) : Prop :=
  ∃ addrs, LinkedHeap.Walk s.heap.nextAt (s.lists v).mHead addrs ∧
    addrs.map s.heap.valueAt = xs.map some

def Value.Denotes (s : Store ι α) (x : α) : Value ι α → Prop
  | .const value => value = x
  | .element w index => ∃ xs, Contents s w xs ∧ xs[index]? = some x

/-- `remove` goes wrong at a first element with the value, at an odd run of it at
the end, and where it deletes the element its argument refers to before the last
comparison. -/
def RemoveBreaks (s : Store ι α) (v : ι) (value : Value ι α) : Prop :=
  ∃ xs x, Contents s v xs ∧ value.Denotes s x ∧
    (xs.head? = some x ∨ ¬ Even (trailing x xs) ∨
      ∃ i, value = .element v i ∧ i + 2 < xs.length ∧ ¬ Even (trailing x (xs.take (i + 1))))

/-- The operations that do not keep the lists well formed. -/
def Op.Breaks (s : Store ι α) : Op ι α → Prop
  | .pushFront v _ | .pushBack v _ => 2 ^ 31 ≤ (s.lists v).mSize + 1
  | .popFront v => 2 ≤ (s.lists v).mSize
  | .insert v pos n _ =>
      (s.lists v).mSize = 0 ∧ pos = .finish ∨ 2 ^ 31 ≤ (s.lists v).mSize + n
  | .insertOne _ _ _ => True
  | .erase v pos =>
      2 ≤ (s.lists v).mSize ∧ pos.index (s.lists v).mSize + 1 = (s.lists v).mSize
  | .eraseRange v first last =>
      first.index (s.lists v).mSize ≠ last.index (s.lists v).mSize ∨
        (s.lists v).mSize = 0 ∧ (first = .finish ∨ last = .finish)
  | .remove v value => RemoveBreaks s v value
  | .assign v n value => n ≠ 0 ∧ ∃ i, value = .element v i
  | .merge v w => (s.lists v).mSize = 0 ∨ (s.lists w).mSize = 0 ∨
      2 ^ 31 ≤ (s.lists v).mSize + (s.lists w).mSize
  | .popBack _ | .resize _ _ | .swap _ _ | .reserve _ | .clear _ => False

end Breaks

/-! ## Passing arguments -/

section Passing

omit [DecidableEq ι] [DecidableEq α] [Inhabited α]

variable {s s' : Store ι α} {v w : ι} {items : ι → List (ℕ × α)} {front back : List (ℕ × α)}
  {x : α} {arg : Arg α} {value : Value ι α} {pos : Position}

theorem returns_plus (hinv : Inv s items) (front : List (ℕ × α)) {back : List (ℕ × α)}
    (hitems : items v = front ++ back) {k : ℕ} (hk : k ≤ back.length) :
    Returns (Iterator.plus ⟨some (back.map Prod.fst).head?⟩ k) s
      ⟨some ((back.drop k).map Prod.fst).head?⟩ s := by
  induction k generalizing front back with
  | zero => exact returns_pure _ s
  | succ k ih =>
      obtain ⟨item, rest, rfl⟩ := List.exists_cons_of_length_pos (show 0 < back.length by omega)
      have hnode := hinv.nodes_eq _ hitems
      rw [List.append_cons] at hitems
      exact (returns_advance hnode).bind (ih _ hitems (by simpa using hk))

/-- An iterator to a position of the list. -/
theorem returns_at (hinv : Inv s items) {i : ℕ} (hi : i ≤ (items v).length) :
    Returns ((Position.at i).pass v) s ⟨some (((items v).drop i).map Prod.fst).head?⟩ s := by
  refine (returns_begin rfl).bind ?_
  rw [(hinv.holds v).head]
  exact returns_plus hinv [] rfl hi

/-- What is passed for a value. -/
inductive Passes (items : ι → List (ℕ × α)) : Value ι α → α → Arg α → Prop
  | const (value : α) : Passes items (.const value) value (.temp value)
  | element {w : ι} {i : ℕ} {item : ℕ × α} (hget : (items w)[i]? = some item) :
      Passes items (.element w i) item.2 (.node item.1)

theorem Passes.denotes (hpasses : Passes items value x arg) : Arg.Denotes items x arg := by
  cases hpasses with
  | const => exact .temp
  | element hget => exact .node (List.mem_of_getElem? hget)

theorem returns_pass (hinv : Inv s items) (hvalid : value.Valid s) :
    ∃ x arg, Passes items value x arg ∧ Returns value.pass s arg s := by
  cases value with
  | const value => exact ⟨value, _, .const value, returns_pure _ s⟩
  | element w i =>
      have hsize := (hinv.holds w).size
      have hlt : i < (items w).length := by
        rw [Value.Valid] at hvalid
        omega
      refine ⟨_, _, .element (List.getElem?_eq_getElem hlt), ?_⟩
      refine (returns_begin rfl).bind ?_
      rw [(hinv.holds w).head]
      refine (returns_plus (v := w) hinv [] rfl hlt.le).bind ?_
      refine (returns_defined rfl s).bind ((returns_defined ?_ s).bind (returns_pure _ s))
      rw [List.drop_eq_getElem_cons hlt]
      rfl

theorem contents_of_inv (hinv : Inv s items) (v : ι) :
    Contents s v ((items v).map Prod.snd) := by
  refine ⟨(items v).map Prod.fst, hinv.walk_next v, ?_⟩
  rw [List.map_map, List.map_map]
  exact List.map_congr_left fun item hitem => (hinv.holds v).values item hitem

theorem Contents.unique {xs ys : List α} (hxs : Contents s v xs) (hys : Contents s v ys) :
    xs = ys := by
  obtain ⟨addrs, hwalk, hvalues⟩ := hxs
  obtain ⟨addrs', hwalk', hvalues'⟩ := hys
  rw [hwalk.unique hwalk', hvalues'] at hvalues
  exact (List.map_injective_iff.mpr (Option.some_injective α) hvalues).symm

/-- The value an operation is given is the one that is passed. -/
theorem Passes.denotes_iff (hinv : Inv s items) (hpasses : Passes items value x arg) {y : α} :
    value.Denotes s y ↔ x = y := by
  cases hpasses with
  | const => exact Iff.rfl
  | @element w i item hget =>
      have hvalue : ((items w).map Prod.snd)[i]? = some item.2 := by
        rw [List.getElem?_map, hget, Option.map_some]
      constructor
      · rintro ⟨xs, hxs, hy⟩
        rw [hxs.unique (contents_of_inv hinv w), hvalue] at hy
        exact Option.some.inj hy
      · rintro rfl
        exact ⟨_, contents_of_inv hinv w, hvalue⟩

/-- An argument that refers to a node of the list is an element of the list. -/
theorem Passes.eq_element (hinv : Inv s items) {a : ℕ} (hpasses : Passes items value x (.node a))
    {i : ℕ} {item : ℕ × α} (hget : (items v)[i]? = some item) (haddr : a = item.1) :
    value = .element v i := by
  obtain ⟨w, j, other, rfl, hother, rfl⟩ : ∃ w j other, value = .element w j ∧
      (items w)[j]? = some other ∧ a = other.1 := by
    cases hpasses with
    | element hother => exact ⟨_, _, _, rfl, hother, rfl⟩
  have hmem : other.1 ∈ (items w).map Prod.fst :=
    List.mem_map_of_mem (List.mem_of_getElem? hother)
  have hmem' : other.1 ∈ (items v).map Prod.fst := by
    rw [haddr]
    exact List.mem_map_of_mem (List.mem_of_getElem? hget)
  by_cases hw : w = v
  · subst hw
    have hlt : i < ((items w).map Prod.fst).length := by
      rw [List.length_map]
      exact (List.getElem?_eq_some_iff.mp hget).1
    have hfst : ((items w).map Prod.fst)[i]? = ((items w).map Prod.fst)[j]? := by
      rw [List.getElem?_map, List.getElem?_map, hget, hother, Option.map_some, Option.map_some, haddr]
    rw [(List.getElem?_inj hlt (hinv.holds w).nodup).mp hfst]
  · exact absurd hmem' (hinv.disjoint w v hw hmem)

/-- What breaks `remove`, said of the nodes. -/
theorem removeBreaks_iff [DecidableEq α] (hinv : Inv s items) (hpasses : Passes items value x arg) :
    RemoveBreaks s v value ↔ ∃ node rest, items v = node :: rest ∧
      (node.2 = x ∨ ¬ Sweeps x arg rest) := by
  constructor
  · rintro ⟨xs, y, hxs, hy, hbreaks⟩
    obtain rfl := (hpasses.denotes_iff hinv).mp hy
    obtain rfl := hxs.unique (contents_of_inv hinv v)
    cases hitems : items v with
    | nil => simp [hitems, trailing] at hbreaks
    | cons node rest =>
        refine ⟨node, rest, rfl, ?_⟩
        by_cases hnode : node.2 = x
        · exact .inl hnode
        · rw [hitems, List.map_cons, trailing_cons_of_ne hnode, List.head?_cons] at hbreaks
          refine .inr fun hsweeps => ?_
          obtain ⟨heven, hinner⟩ := sweeps_iff.mp hsweeps
          rcases hbreaks with hhead | hodd | ⟨i, rfl, hlt, hodd⟩
          · exact hnode (Option.some.inj hhead)
          · exact hodd heven
          · rcases hpasses with _ | @⟨_, _, item, hget⟩
            rw [hitems] at hget
            cases i with
            | zero =>
                obtain rfl : node = item := Option.some.inj hget
                exact hnode rfl
            | succ i =>
                rw [List.take_succ_cons, trailing_cons_of_ne hnode, ← List.map_take] at hodd
                have hshort : i + 2 < rest.length := by
                  simp only [List.length_cons, List.length_map] at hlt
                  omega
                exact hodd (hinner i item hget rfl hshort)
  · rintro ⟨node, rest, hitems, hbreaks⟩
    refine ⟨_, x, contents_of_inv hinv v, (hpasses.denotes_iff hinv).mpr rfl, ?_⟩
    rw [hitems, List.map_cons]
    by_cases hnode : node.2 = x
    · exact .inl (by rw [List.head?_cons, hnode])
    · rw [trailing_cons_of_ne hnode]
      have hsweeps := hbreaks.resolve_left hnode
      rw [sweeps_iff, not_and_or] at hsweeps
      rcases hsweeps with hodd | hinner
      · exact .inr (.inl hodd)
      · push Not at hinner
        obtain ⟨i, item, hget, rfl, hlt, hodd⟩ := hinner
        refine .inr (.inr ⟨i + 1, hpasses.eq_element hinv (i := i + 1) (by rw [hitems]; exact hget) rfl,
          by simp only [List.length_cons, List.length_map]; omega, ?_⟩)
        rwa [List.take_succ_cons, trailing_cons_of_ne hnode, ← List.map_take]

theorem wellFormed_of_inv (hinv : Inv s items) (v : ι) : WellFormed s.heap (s.lists v) := by
  refine ⟨(items v).map Prod.fst, hinv.walk_next v, hinv.walk_prev v, ?_⟩
  rw [(hinv.holds v).size, List.length_map]

end Passing

/-! ## One operation -/

section Step

variable {s s' : Store ι α} {v w : ι} {items : ι → List (ℕ × α)} {front back : List (ℕ × α)}
  {x : α} {arg : Arg α} {value : Value ι α} {pos : Position}

omit [DecidableEq ι] [DecidableEq α] [Inhabited α] in
/-- A position of a list with nodes: its first node, another one, or the end. -/
theorem returns_position (hinv : Inv s items) (hne : items v ≠ []) (hvalid : pos.Valid s v) :
    ∃ i ≤ (items v).length, pos.index (s.lists v).mSize = i ∧
      Returns (pos.pass v) s ⟨some (((items v).drop i).map Prod.fst).head?⟩ s := by
  have hsize := (hinv.holds v).size
  cases pos with
  | «at» index =>
      have hi : index ≤ (items v).length := by
        rw [Position.Valid, Position.index] at hvalid
        omega
      exact ⟨index, hi, rfl, returns_at hinv hi⟩
  | finish =>
      refine ⟨(items v).length, le_rfl, hsize, ?_⟩
      rw [List.drop_length]
      exact returns_end hinv hne

omit [DecidableEq ι] [DecidableEq α] [Inhabited α] in
theorem position_cases {new : List (ℕ × α)} {i : ℕ} (hi : i ≤ new.length) :
    i = 0 ∨ i = new.length ∨ ∃ front before behind back, i = front.length + 1 ∧
      new = front ++ before :: behind :: back ∧ new.drop i = behind :: back := by
  rcases Nat.eq_zero_or_pos i with hzero | hpos
  · exact .inl hzero
  · rcases hi.eq_or_lt with heq | hlt
    · exact .inr (.inl heq)
    · have hlt' : i - 1 < new.length := by omega
      have hsucc : i - 1 + 1 = i := by omega
      refine .inr (.inr ⟨new.take (i - 1), new[i - 1], new[i], new.drop (i + 1), ?_, ?_,
        List.drop_eq_getElem_cons hlt⟩)
      · rw [List.length_take]
        omega
      · rw [← List.drop_eq_getElem_cons hlt]
        have hdrop := List.drop_eq_getElem_cons hlt'
        rw [hsucc] at hdrop
        rw [← hdrop, List.take_append_drop]

omit [DecidableEq α] [Inhabited α] in
/-- `insert` at any position of a list with nodes, and at the beginning of an
empty one. -/
theorem insert_spec (hinv : Inv s items) (hpos : pos.Valid s v)
    (hplace : items v = [] → pos ≠ .finish) (harg : Arg.Denotes items x arg) {n : ℕ}
    (hsmall : (items v).length + n < 2 ^ 31) :
    ∃ it result s' new, Returns (pos.pass v) s it s ∧ Returns (insert v it n arg) s result s' ∧
      Inv s' (Function.update items v new) := by
  have hholds := hinv.holds v
  obtain ⟨i, hi, hpass⟩ : ∃ i ≤ (items v).length,
      Returns (pos.pass v) s ⟨some (((items v).drop i).map Prod.fst).head?⟩ s := by
    by_cases hne : items v = []
    · cases pos with
      | «at» index =>
          have hindex : index ≤ (items v).length := by
            rw [Position.Valid, Position.index, hholds.size] at hpos
            omega
          exact ⟨index, hindex, returns_at hinv hindex⟩
      | finish => exact absurd rfl (hplace hne)
    · obtain ⟨i, hi, -, hpass⟩ := returns_position hinv hne hpos
      exact ⟨i, hi, hpass⟩
  rcases position_cases hi with rfl | rfl | ⟨front, before, behind, back, -, hitems, hdrop⟩
  · obtain ⟨added, s', -, hcall, hs'⟩ := insert_begin (v := v) hinv harg hsmall
    rw [List.drop_zero, ← hholds.head] at hpass
    exact ⟨_, _, s', _, hpass, hcall, hs'⟩
  · rw [List.drop_length] at hpass
    by_cases hne : items v = []
    · obtain ⟨added, s', -, hcall, hs'⟩ := insert_begin (v := v) hinv harg hsmall
      rw [hholds.head, hne] at hcall
      exact ⟨_, _, s', _, hpass, hcall, hs'⟩
    · obtain ⟨added, s', -, hcall, hs'⟩ := insert_end hinv hne harg hsmall
      exact ⟨_, _, s', _, hpass, hcall, hs'⟩
  · obtain ⟨added, s', -, hcall, hs'⟩ := insert_inner hinv hitems harg hsmall
    rw [hdrop] at hpass
    exact ⟨_, _, s', _, hpass, hcall, hs'⟩

omit [DecidableEq α] [Inhabited α] in
/-- `erase` at any position but the last node of several. -/
theorem erase_spec (hinv : Inv s items) (hne : items v ≠ []) (hpos : pos.Valid s v)
    (hok : ¬ (2 ≤ (s.lists v).mSize ∧ pos.index (s.lists v).mSize + 1 = (s.lists v).mSize)) :
    ∃ it result s' new, Returns (pos.pass v) s it s ∧ Returns (erase v it) s result s' ∧
      Inv s' (Function.update items v new) := by
  have hsize := (hinv.holds v).size
  obtain ⟨i, hi, hindex, hpass⟩ := returns_position hinv hne hpos
  rcases position_cases hi with rfl | rfl | ⟨front, before, item, back, rfl, hitems, hdrop⟩
  · obtain ⟨item, back, hitems⟩ := List.exists_cons_of_ne_nil hne
    obtain ⟨s', hcall, hs', -⟩ := erase_head hinv hitems
    rw [List.drop_zero, hitems] at hpass
    exact ⟨_, _, s', back, hpass, hcall, hs'⟩
  · rw [List.drop_length] at hpass
    refine ⟨_, _, s, items v, hpass, erase_end hinv hne, ?_⟩
    rwa [Function.update_eq_self]
  · rw [hdrop] at hpass
    cases back with
    | nil =>
        rw [hindex, hsize, hitems] at hok
        simp only [List.length_append, List.length_cons, List.length_nil] at hok
        omega
    | cons behind back =>
        obtain ⟨s', hcall, hs', -⟩ := erase_inner hinv hitems
        exact ⟨_, _, s', _, hpass, hcall, hs'⟩

omit [DecidableEq ι] [DecidableEq α] [Inhabited α] in
theorem eraseRange_spec {first last : Position} (hinv : Inv s items) (hfirst : first.Valid s v)
    (hlast : last.Valid s v)
    (hindex : first.index (s.lists v).mSize = last.index (s.lists v).mSize)
    (hplace : items v = [] → first ≠ .finish ∧ last ≠ .finish) :
    ∃ p, Returns (first.pass v) s ⟨some p⟩ s ∧ Returns (last.pass v) s ⟨some p⟩ s := by
  have hsize := (hinv.holds v).size
  by_cases hne : items v = []
  · obtain ⟨hfirst', hlast'⟩ := hplace hne
    cases first with
    | finish => exact absurd rfl hfirst'
    | «at» i =>
        cases last with
        | finish => exact absurd rfl hlast'
        | «at» j =>
            rw [Position.Valid, Position.index, hsize] at hfirst
            rw [Position.index, Position.index] at hindex
            obtain rfl : i = j := by omega
            have hi := returns_at (v := v) (i := i) hinv (by omega)
            exact ⟨_, hi, hi⟩
  · obtain ⟨i, -, hi, hpass⟩ := returns_position hinv hne hfirst
    obtain ⟨j, -, hj, hpass'⟩ := returns_position hinv hne hlast
    obtain rfl : i = j := by omega
    exact ⟨_, hpass, hpass'⟩

omit [DecidableEq α] [Inhabited α] in
/-- An argument that is no element of a list outlives its nodes. -/
theorem Passes.denotes_update (hpasses : Passes items value x arg)
    (hother : ¬ ∃ i, value = .element v i) (new : List (ℕ × α)) :
    Arg.Denotes (Function.update items v new) x arg := by
  cases hpasses with
  | const => exact .temp
  | @element w i item hget =>
      have hne : w ≠ v := by
        rintro rfl
        exact hother ⟨i, rfl⟩
      refine .node (w := w) ?_
      rw [Function.update_of_ne hne]
      exact List.mem_of_getElem? hget

/-- Every valid operation that is not one of those that break a list returns and
keeps the invariant. -/
theorem call_keeps {op : Op ι α} (hinv : Inv s items) (hvalid : op.Valid s)
    (hok : ¬ op.Breaks s) : ∃ s' items', Returns op.call s () s' ∧ Inv s' items' := by
  cases op with
  | pushFront v value =>
      obtain ⟨x, arg, hpasses, hpass⟩ := returns_pass hinv hvalid
      have hsize := (hinv.holds v).size
      obtain ⟨s', hcall, hs'⟩ := pushFront_spec (v := v) hinv hpasses.denotes (by
        rw [Op.Breaks] at hok
        omega)
      exact ⟨s', _, hpass.bind hcall, hs'⟩
  | pushBack v value =>
      obtain ⟨x, arg, hpasses, hpass⟩ := returns_pass hinv hvalid
      have hsize := (hinv.holds v).size
      obtain ⟨s', hcall, hs'⟩ := pushBack_spec (v := v) hinv hpasses.denotes (by
        rw [Op.Breaks] at hok
        omega)
      exact ⟨s', _, hpass.bind hcall, hs'⟩
  | popFront v =>
      have hsize := (hinv.holds v).size
      match hitems : items v with
      | [] => exact ⟨s, items, popFront_nil hinv hitems, hinv⟩
      | [node] =>
          obtain ⟨s', hcall, hs'⟩ := popFront_singleton hinv hitems
          exact ⟨s', _, hcall, hs'⟩
      | node :: second :: rest =>
          rw [hitems] at hsize
          simp only [List.length_cons] at hsize
          exact absurd (show 2 ≤ (s.lists v).mSize by omega) hok
  | popBack v =>
      obtain ⟨s', hcall, hs', -⟩ := popBack_spec hinv v
      exact ⟨s', _, hcall, hs'⟩
  | insert v pos n value =>
      obtain ⟨hpos, ⟨hlow, hhigh⟩, hvalue⟩ := hvalid
      obtain ⟨x, arg, hpasses, hpass⟩ := returns_pass hinv hvalue
      obtain ⟨n, rfl⟩ := Int.eq_ofNat_of_zero_le hlow
      have hsize := (hinv.holds v).size
      rw [Op.Breaks, not_or, not_and] at hok
      obtain ⟨it, result, s', new, hit, hcall, hs'⟩ := insert_spec (v := v) (n := n) hinv hpos
        (fun hnil => hok.1 (by rw [hsize, hnil]; rfl)) hpasses.denotes (by omega)
      exact ⟨s', _, hpass.bind (hit.bind (hcall.bind (returns_pure () s'))), hs'⟩
  | insertOne v pos value => exact absurd trivial hok
  | erase v pos =>
      obtain ⟨hpos, hpositive⟩ := hvalid
      have hsize := (hinv.holds v).size
      have hne : items v ≠ [] := by
        rintro hnil
        rw [hsize, hnil] at hpositive
        exact absurd hpositive (by simp)
      obtain ⟨it, result, s', new, hit, hcall, hs'⟩ := erase_spec hinv hne hpos hok
      exact ⟨s', _, hit.bind (hcall.bind (returns_pure () s')), hs'⟩
  | eraseRange v first last =>
      obtain ⟨hfirst, hlast, -⟩ := hvalid
      have hsize := (hinv.holds v).size
      rw [Op.Breaks, not_or, not_not, not_and, not_or] at hok
      obtain ⟨p, hpass, hpass'⟩ := eraseRange_spec hinv hfirst hlast hok.1
        fun hnil => hok.2 (by rw [hsize, hnil]; rfl)
      exact ⟨s, items,
        hpass.bind (hpass'.bind ((eraseRange_self p).bind (returns_pure () s))), hinv⟩
  | remove v value =>
      obtain ⟨x, arg, hpasses, hpass⟩ := returns_pass hinv hvalid
      rw [Op.Breaks, removeBreaks_iff hinv hpasses] at hok
      cases hitems : items v with
      | nil => exact ⟨s, items, hpass.bind (remove_empty hinv hitems), hinv⟩
      | cons node rest =>
          push Not at hok
          obtain ⟨hne, hsweeps⟩ := hok node rest hitems
          obtain ⟨s', hcall, hs'⟩ := remove_spec hinv hitems hpasses.denotes hne hsweeps
          exact ⟨s', _, hpass.bind hcall, hs'⟩
  | resize v n =>
      obtain ⟨hlow, hhigh⟩ := hvalid
      obtain ⟨n, rfl⟩ := Int.eq_ofNat_of_zero_le hlow
      rcases lt_or_ge n (items v).length with hlt | hge
      · obtain ⟨s', hcall, hs'⟩ := resize_shrink hinv hlt
        exact ⟨s', _, hcall, hs'⟩
      · obtain ⟨s', hcall, added, -, hs'⟩ := resize_grow hinv hge (by omega)
        exact ⟨s', _, hcall, hs'⟩
  | assign v n value =>
      obtain ⟨⟨hlow, hhigh⟩, hvalue⟩ := hvalid
      obtain ⟨n, rfl⟩ := Int.eq_ofNat_of_zero_le hlow
      obtain ⟨x, arg, hpasses, hpass⟩ := returns_pass hinv hvalue
      rcases Nat.eq_zero_or_pos n with rfl | hpositive
      · obtain ⟨s', hclear, hs', -⟩ := clear_spec hinv v
        exact ⟨s', _, hpass.bind (hclear.bind (returns_pure () s')), hs'⟩
      · have hother : ¬ ∃ i, value = .element v i := fun h => hok ⟨by omega, h⟩
        obtain ⟨s', hcall, added, -, hs'⟩ := assign_spec (v := v) (n := n) hinv (by omega)
          (hpasses.denotes_update hother [])
        exact ⟨s', _, hpass.bind hcall, hs'⟩
  | merge v w =>
      have hsize := (hinv.holds v).size
      have hsize' := (hinv.holds w).size
      rw [Op.Breaks, not_or, not_or] at hok
      have hv : items v ≠ [] := fun hnil => hok.1 (by rw [hsize, hnil]; rfl)
      have hw : items w ≠ [] := fun hnil => hok.2.1 (by rw [hsize', hnil]; rfl)
      by_cases hsame : v = w
      · subst hsame
        obtain ⟨s', hcall, hs'⟩ := merge_self hinv hv (by omega)
        exact ⟨s', _, hcall, hs'⟩
      · obtain ⟨s', hcall, hs'⟩ := merge_spec hsame hinv hv hw (by omega)
        exact ⟨s', _, hcall, hs'⟩
  | swap v w =>
      obtain ⟨s', hcall, hs'⟩ := swap_spec hinv v w
      exact ⟨s', _, hcall, hs'⟩
  | reserve v =>
      obtain ⟨s', hcall, hs'⟩ := reserve_spec hinv v
      exact ⟨s', _, hcall, hs'⟩
  | clear v =>
      obtain ⟨s', hcall, hs', -⟩ := clear_spec hinv v
      exact ⟨s', _, hcall, hs'⟩

end Step

/-! ## Operations that go wrong -/

section Broken

variable {s s' : Store ι α} {v w : ι} {items : ι → List (ℕ × α)} {x : α} {arg : Arg α}
  {value : Value ι α} {pos : Position} {u : Unit}

omit [DecidableEq ι] [DecidableEq α] [Inhabited α] in
theorem Dangling.not_wellFormed (hdangling : Dangling v s) :
    ¬ WellFormed s.heap (s.lists v) := by
  rintro ⟨addrs, hnext, hprev, -⟩
  obtain ⟨head, hhead, hlink⟩ := hdangling
  rw [hhead] at hnext
  rcases hnext with _ | @⟨_, _, rest, hfollow, hrest⟩
  rw [List.reverse_cons] at hprev
  exact hlink hprev.last

omit [DecidableEq ι] [DecidableEq α] [Inhabited α] in
theorem not_wellFormed_of_dead_tail {tail : ℕ} (htail : (s.lists v).mTail = some tail)
    (hdead : ¬ s.heap.Live tail) : ¬ WellFormed s.heap (s.lists v) := by
  rintro ⟨addrs, -, hprev, -⟩
  rw [htail] at hprev
  generalize addrs.reverse = back at hprev
  rcases hprev with _ | ⟨hfollow, -⟩
  exact hdead (LinkedHeap.live_of_map hfollow)

omit [DecidableEq ι] [DecidableEq α] [Inhabited α] in
/-- `end()` of an empty list is an iterator that was never initialised. -/
theorem returns_finish_nil (hsize : (s.lists v).mSize = 0) :
    Returns (Position.finish.pass v) s ⟨none⟩ s := by
  refine (returns_self rfl).bind ?_
  rw [if_pos hsize]
  exact returns_pure _ s

omit [DecidableEq ι] [DecidableEq α] [Inhabited α] in
theorem stuck_same {left right : Iterator} (hnone : left = ⟨none⟩ ∨ right = ⟨none⟩) :
    Stuck (left.same right) s := by
  rcases hnone with rfl | rfl
  · exact (stuck_defined rfl s).bind
  · rcases left with ⟨_ | p⟩
    · exact (stuck_defined rfl s).bind
    · exact (returns_defined rfl s).bind_stuck (stuck_defined rfl s).bind

omit [DecidableEq ι] [DecidableEq α] [Inhabited α] in
/-- A push that returned has made a size that fits an `int`. -/
theorem Grows.not_large {push : Arg α → M ι α Unit} (hgrows : ∀ arg, Grows v (push arg))
    (hinv : Inv s items) (hvalid : value.Valid s)
    (hcall : Returns (do
      let arg ← value.pass
      push arg) s u s') :
    ¬ 2 ^ 31 ≤ (s.lists v).mSize + 1 := by
  obtain ⟨x, arg, -, hpass⟩ := returns_pass hinv hvalid
  obtain ⟨_, s₁, hpass', hpush⟩ := hcall.bind_inv
  obtain ⟨rfl, rfl⟩ := hpass'.unique hpass
  obtain ⟨⟨-, hfits⟩, -⟩ := hgrows _ _ _ _ hpush
  omega

omit [Inhabited α] in
theorem insert_not_breaks (hinv : Inv s items) {n : ℤ} (hn : Count n)
    {it result : Iterator} (hpass : Returns (pos.pass v) s it s)
    (hcall : Returns (insert v it n arg) s result s') : ¬ Op.Breaks s (.insert v pos n value) := by
  rintro (⟨hsize, rfl⟩ | hlarge)
  · obtain ⟨rfl, -⟩ := hpass.unique (returns_finish_nil hsize)
    have hstuck : Stuck (insert v ⟨none⟩ n arg) s :=
      (returns_begin rfl).bind_stuck (stuck_same (.inl rfl)).bind
    exact hstuck.not_returns hcall
  · obtain ⟨n, rfl⟩ := Int.eq_ofNat_of_zero_le hn.1
    have hsmall := (hinv.holds v).small
    have hsize := (hinv.holds v).size
    rcases insert_fits hcall with rfl | ⟨-, hfits⟩
    · omega
    · omega

omit [Inhabited α] in
theorem erase_breaks (hinv : Inv s items) (hpos : pos.Valid s v)
    (hbreaks : Op.Breaks s (.erase v pos : Op ι α)) {it result : Iterator}
    (hpass : Returns (pos.pass v) s it s) (hcall : Returns (erase v it) s result s') :
    ¬ WellFormed s'.heap (s'.lists v) := by
  obtain ⟨htwo, hindex⟩ := hbreaks
  have hsize := (hinv.holds v).size
  have hne : items v ≠ [] := by
    intro hnil
    rw [hsize, hnil] at htwo
    exact absurd htwo (by simp)
  obtain ⟨i, hi, hi', hpass'⟩ := returns_position hinv hne hpos
  obtain ⟨rfl, -⟩ := hpass.unique hpass'
  rcases position_cases hi with rfl | rfl | ⟨front, before, item, back, rfl, hitems, hdrop⟩
  · omega
  · omega
  · obtain rfl : back = [] := by
      rw [hi', hsize, hitems] at hindex
      simp only [List.length_append, List.length_cons] at hindex
      exact List.eq_nil_of_length_eq_zero (by omega)
    obtain ⟨s'', herase, htail, hdead⟩ := erase_last hinv hitems
    rw [hdrop] at hcall
    obtain ⟨-, rfl⟩ := hcall.unique herase
    exact not_wellFormed_of_dead_tail htail hdead

omit [Inhabited α] in
theorem eraseRange_breaks {first last : Position} (hinv : Inv s items)
    (hvalid : Op.Valid s (.eraseRange v first last : Op ι α))
    (hbreaks : Op.Breaks s (.eraseRange v first last : Op ι α)) {it it' : Iterator}
    (hpass : Returns (first.pass v) s it s) (hpass' : Returns (last.pass v) s it' s) :
    Stuck (eraseRange v it it') s := by
  obtain ⟨hfirst, hlast, hle⟩ := hvalid
  have hsize := (hinv.holds v).size
  rcases hbreaks with hne | ⟨hzero, hfinish⟩
  · have hitems : items v ≠ [] := by
      intro hnil
      rw [hnil, List.length_nil, Nat.cast_zero] at hsize
      rw [Position.Valid, hsize] at hlast
      rw [hsize] at hle hne
      exact hne (hle.antisymm (hlast.trans (Position.index_nonneg le_rfl)))
    obtain ⟨i, hi, hi', hat⟩ := returns_position hinv hitems hfirst
    obtain ⟨j, hj, hj', hat'⟩ := returns_position hinv hitems hlast
    obtain ⟨rfl, -⟩ := hpass.unique hat
    obtain ⟨rfl, -⟩ := hpass'.unique hat'
    have hlt : i < (items v).length := by omega
    rw [List.drop_eq_getElem_cons hlt]
    refine eraseRange_stuck hinv (List.getElem_mem hlt) ?_
    intro hsame
    have hfst : ((items v).map Prod.fst)[i]? = ((items v).map Prod.fst)[j]? := by
      rw [List.getElem?_map, List.getElem?_eq_getElem hlt, Option.map_some, hsame, List.map_drop,
        List.head?_drop]
    have hij := (List.getElem?_inj (by rwa [List.length_map]) (hinv.holds v).nodup).mp hfst
    exact hne (by rw [hi', hj', hij])
  · have hnone : it = ⟨none⟩ ∨ it' = ⟨none⟩ := by
      refine hfinish.imp ?_ ?_
      · rintro rfl
        exact (hpass.unique (returns_finish_nil hzero)).1
      · rintro rfl
        exact (hpass'.unique (returns_finish_nil hzero)).1
    exact Stuck.bind (Stuck.loop (stuck_same hnone).bind)

omit [DecidableEq ι] [DecidableEq α] [Inhabited α] in
theorem returned_position (hinv : Inv s items) (hpos : pos.Valid s v) {it : Iterator}
    (hpass : Returns (pos.pass v) s it s') : s' = s := by
  by_cases hne : items v = []
  · have hsize := (hinv.holds v).mSize_eq_zero.mpr hne
    cases pos with
    | «at» index =>
        rw [Position.Valid, Position.index, hsize] at hpos
        exact (hpass.unique (returns_at hinv (by omega))).2
    | finish => exact (hpass.unique (returns_finish_nil hsize)).2
  · obtain ⟨i, -, -, hat⟩ := returns_position hinv hne hpos
    exact (hpass.unique hat).2

/-- An operation that breaks a list has no outcome or leaves a list that is not
well formed. -/
theorem call_breaks {op : Op ι α} (hinv : Inv s items) (hvalid : op.Valid s)
    (hbreaks : op.Breaks s) (hcall : Returns op.call s u s') :
    ∃ v, ¬ WellFormed s'.heap (s'.lists v) := by
  cases op with
  | pushFront v value =>
      exact absurd hbreaks (Grows.not_large (pushFront_grows v) hinv hvalid hcall)
  | pushBack v value =>
      exact absurd hbreaks (Grows.not_large (pushBack_grows v) hinv hvalid hcall)
  | popFront v =>
      have hsize := (hinv.holds v).size
      match hitems : items v with
      | [] | [node] =>
          rw [Op.Breaks, hsize, hitems] at hbreaks
          exact absurd hbreaks (by simp)
      | node :: second :: back =>
          obtain ⟨hhead, hdead⟩ := popFront_dangling hinv hitems hcall
          refine ⟨v, Dangling.not_wellFormed ⟨second.1, hhead, fun hprev => ?_⟩⟩
          exact hdead (LinkedHeap.live_of_map hprev)
  | insert v pos n value =>
      obtain ⟨hpos, hn, hvalue⟩ := hvalid
      obtain ⟨x, arg, -, hpass⟩ := returns_pass hinv hvalue
      obtain ⟨_, s₁, hpass', h₁⟩ := hcall.bind_inv
      obtain ⟨rfl, rfl⟩ := hpass'.unique hpass
      obtain ⟨it, s₂, hit, h₂⟩ := h₁.bind_inv
      obtain rfl := returned_position hinv hpos hit
      obtain ⟨result, s₃, hinsert, -⟩ := h₂.bind_inv
      exact absurd hbreaks (insert_not_breaks hinv hn hit hinsert)
  | insertOne v pos value =>
      obtain ⟨arg, s₁, -, h₁⟩ := hcall.bind_inv
      obtain ⟨it, s₂, -, h₂⟩ := h₁.bind_inv
      obtain ⟨result, s₃, hinsert, -⟩ := h₂.bind_inv
      obtain ⟨_, s₄, -, hnone⟩ := hinsert.bind_inv
      exact absurd hnone (stuck_undefined s₄).not_returns
  | erase v pos =>
      obtain ⟨it, s₁, hit, h₁⟩ := hcall.bind_inv
      obtain rfl := returned_position hinv hvalid.1 hit
      obtain ⟨result, s₂, herase, h₂⟩ := h₁.bind_inv
      obtain ⟨-, rfl⟩ := h₂.pure_inv
      exact ⟨v, erase_breaks hinv hvalid.1 hbreaks hit herase⟩
  | eraseRange v first last =>
      obtain ⟨it, s₁, hit, h₁⟩ := hcall.bind_inv
      obtain rfl := returned_position hinv hvalid.1 hit
      obtain ⟨it', s₂, hit', h₂⟩ := h₁.bind_inv
      obtain rfl := returned_position hinv hvalid.2.1 hit'
      obtain ⟨result, s₃, herase, -⟩ := h₂.bind_inv
      exact absurd herase (eraseRange_breaks hinv hvalid hbreaks hit hit').not_returns
  | remove v value =>
      obtain ⟨x, arg, hpasses, hpass⟩ := returns_pass hinv hvalid
      obtain ⟨_, s₁, hpass', hremove⟩ := hcall.bind_inv
      obtain ⟨rfl, rfl⟩ := hpass'.unique hpass
      obtain ⟨node, rest, hitems, hwrong⟩ := (removeBreaks_iff hinv hpasses).mp hbreaks
      by_cases hnode : node.2 = x
      · subst hnode
        exact ⟨v, (remove_dangling hinv hitems hpasses.denotes hremove).not_wellFormed⟩
      · have hsweeps := hwrong.resolve_left hnode
        exact absurd hremove (remove_stuck hinv hitems hpasses.denotes hnode hsweeps).not_returns
  | assign v n value =>
      obtain ⟨hn, i, rfl⟩ := hbreaks
      obtain ⟨⟨hlow, -⟩, hvalue⟩ := hvalid
      obtain ⟨n, rfl⟩ := Int.eq_ofNat_of_zero_le hlow
      obtain ⟨x, arg, hpasses, hpass⟩ := returns_pass hinv hvalue
      obtain ⟨_, s₁, hpass', hassign⟩ := hcall.bind_inv
      obtain ⟨rfl, rfl⟩ := hpass'.unique hpass
      cases hpasses with
      | element hget =>
          have haddr := List.mem_map_of_mem (f := Prod.fst) (List.mem_of_getElem? hget)
          exact absurd hassign (assign_stuck hinv haddr (by exact_mod_cast hn)).not_returns
  | merge v w =>
      have hsize := (hinv.holds v).size
      have hsize' := (hinv.holds w).size
      by_cases hempty : items v = [] ∨ items w = []
      · exact absurd hcall (merge_stuck hinv hempty).not_returns
      · rw [not_or] at hempty
        have hlarge : 2 ^ 31 ≤ (items v).length + (items w).length := by
          have hv := List.length_pos_iff.mpr hempty.1
          have hw := List.length_pos_iff.mpr hempty.2
          rcases hbreaks with hzero | hzero | hlarge <;> omega
        exact absurd hcall (merge_overflow hinv hempty.1 hempty.2 hlarge).not_returns
  | popBack v => exact hbreaks.elim
  | resize v n => exact hbreaks.elim
  | swap v w => exact hbreaks.elim
  | reserve v => exact hbreaks.elim
  | clear v => exact hbreaks.elim

end Broken

/-! ## The lists of a run -/

/-- The states in which nothing has gone wrong. -/
def Intact (state : Option (Store ι α)) : Prop := ∃ s items, state = some s ∧ Inv s items

section Intact

omit [DecidableEq ι] [DecidableEq α] [Inhabited α]

theorem inv_start : Inv (start : Store ι α) fun _ => [] where
  holds := fun v =>
    { chain := LinkedHeap.segment_nil.mpr ⟨by simp, by simp⟩
      nodup := List.nodup_nil
      values := by simp
      head := rfl
      tail := rfl
      size := rfl
      small := by simp }
  disjoint := by simp

theorem Intact.sound {state : Option (Store ι α)} (hintact : Intact state) : Sound state := by
  obtain ⟨s, items, rfl, hinv⟩ := hintact
  exact ⟨s, rfl, wellFormed_of_inv hinv⟩

end Intact

/-- What a step of the system is. -/
theorem step_cases {state state' : Option (Store ι α)} {op : Op ι α}
    (hstep : operations.step state op = some state') :
    ∃ s, state = some s ∧ op.Valid s ∧ op.result s = state' := by
  obtain ⟨s, rfl, hs⟩ := Option.bind_eq_some_iff.mp hstep
  split_ifs at hs with hvalid
  exact ⟨s, rfl, hvalid, Option.some.inj hs⟩

theorem result_eq_some {op : Op ι α} {s s' : Store ι α} :
    op.result s = some s' ↔ Returns op.call s () s' := by
  rw [Op.result, Returns]
  constructor
  · intro hresult
    split at hresult
    · obtain rfl := Option.some.inj hresult
      assumption
    · cases hresult
    · cases hresult
  · intro hcall
    rw [hcall]

theorem operations_keep {state state' : Option (Store ι α)} {op : Op ι α}
    (hintact : Intact state) (hstep : operations.step state op = some state')
    (hok : ¬ ∃ s, state = some s ∧ op.Breaks s) : Intact state' := by
  obtain ⟨s, items, rfl, hinv⟩ := hintact
  obtain ⟨_, hs, hvalid, rfl⟩ := step_cases hstep
  obtain rfl := Option.some.inj hs
  obtain ⟨s', items', hcall, hinv'⟩ := call_keeps hinv hvalid fun hbreaks => hok ⟨s, rfl, hbreaks⟩
  exact ⟨s', items', result_eq_some.mpr hcall, hinv'⟩

theorem operations_break {state state' : Option (Store ι α)} {op : Op ι α}
    (hintact : Intact state) (hstep : operations.step state op = some state')
    (hbad : ∃ s, state = some s ∧ op.Breaks s) : ¬ Sound state' := by
  obtain ⟨s, items, rfl, hinv⟩ := hintact
  obtain ⟨_, hs, hvalid, rfl⟩ := step_cases hstep
  obtain rfl := Option.some.inj hs
  obtain ⟨_, hs', hbreaks⟩ := hbad
  obtain rfl := Option.some.inj hs'
  rintro ⟨s', hresult, hall⟩
  obtain ⟨v, hbroken⟩ := call_breaks hinv hvalid hbreaks (result_eq_some.mp hresult)
  exact hbroken (hall v)

/-- The lists stay well formed, and nothing goes wrong, in exactly the runs
without an operation that breaks a list. -/
theorem wellFormed_iff {visited : List (Option (Store ι α) × Op ι α)}
    {state : Option (Store ι α)} (hrun : operations.Run visited state) :
    ((∀ before ∈ visited, Sound before.1) ∧ Sound state) ↔
      ∀ taken ∈ visited, ¬ ∃ s, taken.1 = some s ∧ taken.2.Breaks s := by
  have hinitial : ∀ state, (operations (ι := ι) (α := α)).initial state → Intact state := by
    rintro state rfl
    exact ⟨start, _, rfl, inv_start⟩
  have hgood : ∀ (state : Option (Store ι α)) (op : Op ι α) state', Intact state →
      operations.step state op = some state' → ¬ (∃ s, state = some s ∧ op.Breaks s) →
      Intact state' := fun _ _ _ => operations_keep
  have hbad : ∀ (state : Option (Store ι α)) (op : Op ι α) state', Intact state →
      operations.step state op = some state' → (∃ s, state = some s ∧ op.Breaks s) →
      ¬ Sound state' := fun _ _ _ => operations_break
  exact TransitionSystem.Run.forall_iff (fun _ => Intact.sound) hinitial hgood hbad hrun

/-- A run of one `push_back`. -/
theorem wellFormed_iff_pushBack :
    ∃ state : Option (Store Bool ℕ),
      operations.Run [(some start, .pushBack true (.const 5))] state ∧ Sound state := by
  have hstep : operations.step (some (start : Store Bool ℕ)) (.pushBack true (.const 5)) =
      some ((Op.pushBack true (.const 5)).result start) := rfl
  have hrun := TransitionSystem.Run.step (.initial rfl) hstep
  refine ⟨_, hrun, ((wellFormed_iff hrun).mpr ?_).2⟩
  intro taken htaken
  obtain rfl : taken = (some start, .pushBack true (.const 5)) := by simpa using htaken
  rintro ⟨s, hs, hbreaks⟩
  obtain rfl := Option.some.inj hs
  rw [Op.Breaks] at hbreaks
  exact absurd hbreaks (by decide)

/-- Two elements are pushed and the first is popped. -/
theorem not_wellFormed :
    ¬ ∀ (visited : List (Option (Store Unit ℕ) × Op Unit ℕ)) state,
      operations.Run visited state → (∀ before ∈ visited, Sound before.1) ∧ Sound state := by
  intro hall
  obtain ⟨s₁, hpush, hinv₁⟩ := pushBack_spec (v := ()) inv_start (.temp (x := 1)) (by simp)
  obtain ⟨s₂, hpush', hinv₂⟩ := pushBack_spec (v := ()) hinv₁ (.temp (x := 2)) (by simp)
  have hfirst : operations.step (some start) (.pushBack () (.const 1)) = some (some s₁) :=
    congrArg some (result_eq_some.mpr ((returns_pure _ start).bind hpush))
  have hsecond : operations.step (some s₁) (.pushBack () (.const 2)) = some (some s₂) :=
    congrArg some (result_eq_some.mpr ((returns_pure _ s₁).bind hpush'))
  have hthird : operations.step (some s₂) (.popFront ()) =
      some ((Op.popFront ()).result s₂) := rfl
  have hsize : (s₂.lists ()).mSize = 2 := by
    rw [(hinv₂.holds ()).size]
    simp
  refine operations_break ⟨s₂, _, rfl, hinv₂⟩ hthird ⟨s₂, rfl, hsize.ge⟩ ?_
  exact (hall _ _ ((((TransitionSystem.Run.initial rfl).step hfirst).step hsecond).step hthird)).2

end LinkedList

end CppProjects
