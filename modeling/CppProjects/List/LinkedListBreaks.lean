import Mathlib.Data.List.TakeWhile
import CppProjects.List.LinkedListRemove

/-!
# Where `List` goes wrong

Runs of equal values decide what `remove` does; `pop_front` deletes the wrong
node; `m_size` can overflow; and `assign` reads an argument it has deleted.
-/

namespace CppProjects

open CInt Program

namespace LinkedList

variable {ι α : Type}

/-! ## Runs of a value -/

section Run

variable [DecidableEq α] {x y z : α} {xs : List α}

/-- How many of the last elements have the value. -/
def trailing (x : α) (xs : List α) : ℕ := (xs.reverse.takeWhile (· = x)).length

theorem trailing_cons : trailing x (y :: xs) =
    if (∀ z ∈ xs, z = x) ∧ y = x then xs.length + 1 else trailing x xs := by
  rw [trailing, trailing, List.reverse_cons, List.takeWhile_append]
  by_cases hall : ∀ z ∈ xs, z = x
  · have hwhole : xs.reverse.takeWhile (· = x) = xs.reverse := by
      rw [List.takeWhile_eq_self_iff]
      simpa using hall
    rw [if_pos (by rw [hwhole])]
    by_cases hy : y = x
    · rw [if_pos ⟨hall, hy⟩]
      simp [hy]
    · rw [if_neg (fun h => hy h.2), hwhole]
      simp [hy]
  · rw [if_neg, if_neg (fun h => hall h.1)]
    intro hlength
    have hwhole : xs.reverse.takeWhile (· = x) = xs.reverse :=
      (List.takeWhile_prefix _).eq_of_length hlength
    rw [List.takeWhile_eq_self_iff] at hwhole
    exact hall (by simpa using hwhole)

theorem trailing_cons_of_ne (hne : y ≠ x) : trailing x (y :: xs) = trailing x xs := by
  rw [trailing_cons, if_neg (fun h => hne h.2)]

/-- A value and the element behind it do not change whether a run is even. -/
theorem even_trailing_cons_cons :
    Even (trailing x (x :: y :: xs)) ↔ Even (trailing x xs) := by
  by_cases hall : ∀ z ∈ y :: xs, z = x
  · have hy : y = x := hall y (by simp)
    have hxs : trailing x xs = xs.length := by
      have hwhole : xs.reverse.takeWhile (· = x) = xs.reverse := by
        rw [List.takeWhile_eq_self_iff]
        simpa using fun z hz => hall z (by simp [hz])
      rw [trailing, hwhole, List.length_reverse]
    rw [trailing_cons, if_pos ⟨hall, rfl⟩, hxs, List.length_cons, Nat.even_add_one, Nat.even_add_one,
      not_not]
  · rw [trailing_cons, if_neg (fun h => hall h.1)]
    by_cases hy : y = x
    · have hxs : ¬ ∀ z ∈ xs, z = x := fun hxs => hall (by simpa [hy] using hxs)
      rw [trailing_cons, if_neg (fun h => hxs h.1)]
    · rw [trailing_cons_of_ne hy]

/-- The second loop of `remove` goes well where the last run of the value is even,
and where the run up to the argument is, unless that is the last node but one. -/
theorem sweeps_iff {arg : Arg α} {items : List (ℕ × α)} :
    Sweeps x arg items ↔ Even (trailing x (items.map Prod.snd)) ∧
      ∀ i item, items[i]? = some item → arg = .node item.1 → i + 2 < items.length →
        Even (trailing x ((items.take (i + 1)).map Prod.snd)) := by
  fun_induction Sweeps x arg items with
  | case1 => simp [trailing]
  | case2 first =>
      rw [List.map_singleton, trailing_cons]
      by_cases hvalue : first.2 = x
      · simp [hvalue]
      · simp [hvalue, trailing]
  | case3 first second rest hvalue ih =>
      rw [ih, List.map_cons, List.map_cons, hvalue, even_trailing_cons_cons]
      constructor
      · rintro ⟨hother, heven, hinner⟩
        refine ⟨heven, fun i item hitem hnode hlt => ?_⟩
        match i with
        | 0 =>
            obtain rfl : first = item := Option.some.inj hitem
            exact absurd hnode (hother.resolve_left fun hnil => by simp [hnil] at hlt)
        | 1 =>
            simp only [List.take_succ_cons, List.take_zero, List.map_cons, List.map_nil, hvalue]
            rw [even_trailing_cons_cons]
            exact ⟨0, rfl⟩
        | i + 2 =>
            simp only [List.take_succ_cons, List.map_cons, hvalue]
            rw [even_trailing_cons_cons]
            simp only [List.length_cons] at hlt
            exact hinner i item hitem hnode (by omega)
      · rintro ⟨heven, hinner⟩
        refine ⟨?_, heven, fun i item hitem hnode hlt => ?_⟩
        · by_contra hother
          rw [not_or, not_not] at hother
          have hone := hinner 0 first rfl hother.2 (by
            have hpos := List.length_pos_iff.mpr hother.1
            simp only [List.length_cons]
            omega)
          simp only [List.take_succ_cons, List.take_zero, List.map_cons, List.map_nil, hvalue] at hone
          rw [trailing_cons, if_pos (by simp)] at hone
          exact absurd hone (by simp)
        · have htwo := hinner (i + 2) item hitem hnode (by simp only [List.length_cons]; omega)
          simp only [List.take_succ_cons, List.map_cons, hvalue] at htwo
          rwa [even_trailing_cons_cons] at htwo
  | case4 first second rest hvalue ih =>
      have hlast : trailing x ((first :: second :: rest).map Prod.snd) =
          trailing x ((second :: rest).map Prod.snd) := by
        rw [List.map_cons, trailing_cons_of_ne hvalue]
      rw [ih, hlast]
      refine and_congr_right fun _ => ⟨fun hinner i item hitem hnode hlt => ?_,
        fun hinner i item hitem hnode hlt => ?_⟩
      · rw [List.take_succ_cons, List.map_cons, trailing_cons_of_ne hvalue]
        cases i with
        | zero => exact ⟨0, rfl⟩
        | succ i => exact hinner i item hitem hnode (by simpa using hlt)
      · have hone := hinner (i + 1) item hitem hnode (by simpa using hlt)
        rwa [List.take_succ_cons, List.map_cons, trailing_cons_of_ne hvalue] at hone

end Run

variable [DecidableEq ι] {s s' : Store ι α} {v w : ι} {items : ι → List (ℕ × α)}
  {front back rest : List (ℕ × α)} {x : α} {arg : Arg α} {addr : ℕ} {item node : ℕ × α}

/-! ## `pop_front` -/

theorem popFront_nil (hinv : Inv s items) (hitems : items v = []) :
    Returns (popFront v) s () s := by
  have hthis := hinv.holds v
  rw [hitems] at hthis
  refine (returns_self hthis.eq_of_nil).bind ?_
  rw [if_pos rfl]
  exact returns_pure () s

theorem popFront_singleton (hinv : Inv s items) (hitems : items v = [node]) :
    ∃ s', Returns (popFront v) s () s' ∧ Inv s' (Function.update items v []) := by
  have hthis := hinv.holds v
  rw [hitems] at hthis
  refine exists_bind (returns_self hthis.eq_of_singleton) ⟨_, ?_, hinv.popped_singleton hitems⟩
  rw [if_neg (show ¬ (1 : ℤ) = 0 by decide), if_pos rfl]
  exact returns_pop_singleton hinv hitems

/-- `pop_front` deletes the second node and makes it the first. -/
theorem popFront_dangling {second : ℕ × α} (hinv : Inv s items)
    (hitems : items v = node :: second :: back) (hcall : Returns (popFront v) s () s') :
    (s'.lists v).mHead = some second.1 ∧ ¬ s'.heap.Live second.1 := by
  have hholds := hinv.holds v
  have hnode := hinv.nodes_eq [] hitems
  have hlive : s.heap.Live second.1 := hholds.live (by simp [hitems])
  have hsize := hholds.size
  rw [hitems, List.length_cons, List.length_cons] at hsize
  have hhead : (s.lists v).mHead = some node.1 := by
    rw [hholds.head, hitems]
    rfl
  obtain ⟨this, s₁, hself, h₁⟩ := hcall.bind_inv
  obtain ⟨rfl, rfl⟩ := returned_self hself
  rw [if_neg (by omega), if_neg (by omega), hhead] at h₁
  obtain ⟨first, s₂, hderef, h₂⟩ := h₁.bind_inv
  obtain ⟨rfl, rfl⟩ := hderef.unique (returns_deref hnode)
  obtain ⟨_, s₃, hset, h₃⟩ := h₂.bind_inv
  obtain ⟨-, rfl⟩ := hset.unique (returns_setPrev hlive)
  obtain ⟨_, s₄, hdelete, h₄⟩ := h₃.bind_inv
  obtain ⟨-, rfl⟩ := hdelete.unique (returns_delete hlive.setPrev)
  obtain ⟨_, s₅, hupdate, h₅⟩ := h₄.bind_inv
  obtain ⟨-, rfl⟩ := hupdate.unique (returns_update rfl _)
  obtain ⟨-, rfl⟩ := returned_addSize h₅
  rw [Store.lists_withList, Store.lists_withList]
  exact ⟨rfl, by simp [LinkedHeap.Live]⟩

/-! ## Sizes beyond `INT_MAX` -/

omit [DecidableEq ι] in
/-- What leaves the fields of the lists alone. -/
theorem preserves_lists {p : Option ℕ} {write : LinkedHeap α → ℕ → LinkedHeap α}
    (lists : ι → LinkedList) :
    Preserves (assignTo p write : M ι α Unit) fun t => t.lists = lists :=
  preserves_heap fun _ _ ht => ht

omit [DecidableEq ι] in
theorem newNode_lists (lists : ι → LinkedList) :
    Preserves (newNode arg : M ι α (Option ℕ)) fun t => t.lists = lists := by
  rintro t value t' ht hreturns
  obtain ⟨x, t₁, hfetch, h₁⟩ := hreturns.bind_inv
  obtain rfl := returned_fetch hfetch
  obtain ⟨_, t₂, hget, h₂⟩ := h₁.bind_inv
  obtain ⟨rfl, rfl⟩ := hget.get_inv
  obtain ⟨-, rfl⟩ := h₂.unique rfl
  exact ht

/-- A push that returned has made the size one larger, and it fits. -/
def Grows (v : ι) (push : M ι α Unit) : Prop :=
  ∀ s u s', Returns push s u s' → FitsInt ((s.lists v).mSize + 1) ∧
    (s'.lists v).mSize = (s.lists v).mSize + 1

theorem returned_update_addSize {u : Unit} {f : LinkedList → LinkedList}
    (hf : ∀ this, (f this).mSize = this.mSize)
    (h : Returns (do
      update v f
      addSize v 1) s u s') :
    FitsInt ((s.lists v).mSize + 1) ∧ (s'.lists v).mSize = (s.lists v).mSize + 1 := by
  obtain ⟨_, s₁, hupdate, hadd⟩ := h.bind_inv
  obtain ⟨-, rfl⟩ := hupdate.unique (returns_update rfl _)
  obtain ⟨hfits, rfl⟩ := returned_addSize hadd
  rw [Store.lists_withList, hf] at hfits
  refine ⟨hfits, ?_⟩
  rw [Store.lists_withList, Store.lists_withList, hf]

theorem pushFront_grows (v : ι) (arg : Arg α) : Grows v (pushFront v arg) := by
  intro s u s' hcall
  obtain ⟨node, s₁, hnew, h₁⟩ := hcall.bind_inv
  have hlists : s₁.lists = s.lists := newNode_lists s.lists s node s₁ rfl hnew
  obtain ⟨this, s₂, hself, h₂⟩ := h₁.bind_inv
  obtain ⟨rfl, rfl⟩ := returned_self hself
  rw [← hlists]
  split_ifs at h₂
  · refine returned_update_addSize ?_ h₂
    exact fun _ => rfl
  · obtain ⟨_, s₃, hset, h₃⟩ := h₂.bind_inv
    obtain ⟨_, s₄, hset', h₄⟩ := h₃.bind_inv
    have hlists' : s₄.lists = s₂.lists := preserves_lists s₂.lists _ _ _
      (preserves_lists s₂.lists _ _ _ rfl hset) hset'
    rw [← hlists']
    refine returned_update_addSize ?_ h₄
    exact fun _ => rfl

theorem pushBack_grows (v : ι) (arg : Arg α) : Grows v (pushBack v arg) := by
  intro s u s' hcall
  obtain ⟨node, s₁, hnew, h₁⟩ := hcall.bind_inv
  have hlists : s₁.lists = s.lists := newNode_lists s.lists s node s₁ rfl hnew
  obtain ⟨this, s₂, hself, h₂⟩ := h₁.bind_inv
  obtain ⟨rfl, rfl⟩ := returned_self hself
  rw [← hlists]
  split_ifs at h₂
  · refine returned_update_addSize ?_ h₂
    exact fun _ => rfl
  · obtain ⟨_, s₃, hset, h₃⟩ := h₂.bind_inv
    obtain ⟨_, s₄, hset', h₄⟩ := h₃.bind_inv
    have hlists' : s₄.lists = s₂.lists := preserves_lists s₂.lists _ _ _
      (preserves_lists s₂.lists _ _ _ rfl hset) hset'
    rw [← hlists']
    refine returned_update_addSize ?_ h₄
    exact fun _ => rfl

omit [DecidableEq ι] in
/-- `n` pushes that returned have made a size that fits. -/
theorem Grows.times {push : M ι α Unit} (hpush : Grows v push) {n : ℕ} {i : ℤ} {u : Unit}
    (hcall : Returns (forUp (fun _ => push) i n) s u s') :
    n = 0 ∨ FitsInt ((s.lists v).mSize + n) := by
  induction n generalizing s i with
  | zero => exact .inl rfl
  | succ n ih =>
      obtain ⟨_, s₁, hfirst, h₁⟩ := hcall.bind_inv
      obtain ⟨_, s₂, hnext, h₂⟩ := h₁.bind_inv
      obtain ⟨-, -, rfl⟩ := hnext.intExpr_inv
      obtain ⟨hfits, hsize⟩ := hpush _ _ _ hfirst
      right
      rcases ih h₂ with rfl | hrest
      · simpa using hfits
      · rw [hsize] at hrest
        push_cast
        rwa [add_comm (n : ℤ) 1, ← add_assoc]

omit [DecidableEq ι] in
theorem insertBefore_lists (arg : Arg α) (pointer : Option ℕ) (lists : ι → LinkedList) :
    Preserves (insertBefore arg pointer : M ι α (Option ℕ)) fun t => t.lists = lists := by
  refine (newNode_lists lists).bind fun node => preserves_deref.bind fun old => ?_
  refine (preserves_lists lists).bind fun _ => (preserves_lists lists).bind fun _ => ?_
  refine (preserves_lists lists).bind fun _ => (preserves_lists lists).bind fun _ => ?_
  exact preserves_pure node _

omit [DecidableEq ι] in
theorem returned_same {left right : Iterator} {b : Bool} (h : Returns (left.same right) s b s') :
    s' = s := by
  obtain ⟨_, _, hleft, h₁⟩ := h.bind_inv
  obtain ⟨-, rfl⟩ := hleft.defined_inv
  obtain ⟨_, _, hright, h₂⟩ := h₁.bind_inv
  obtain ⟨-, rfl⟩ := hright.defined_inv
  exact h₂.pure_inv.2

omit [DecidableEq ι] in
theorem returned_end {it : Iterator} (h : Returns (end' v) s it s') : s' = s := by
  obtain ⟨_, _, hself, h₁⟩ := h.bind_inv
  obtain ⟨rfl, rfl⟩ := returned_self hself
  split_ifs at h₁
  · exact h₁.pure_inv.2
  · obtain ⟨_, _, hderef, h₂⟩ := h₁.bind_inv
    obtain ⟨-, rfl⟩ := returned_deref hderef
    exact h₂.pure_inv.2

/-- `insert` that returned has made a size that fits. -/
theorem insert_fits {pos it : Iterator} {n : ℕ} (hcall : Returns (insert v pos n arg) s it s') :
    n = 0 ∨ FitsInt ((s.lists v).mSize + n) := by
  obtain ⟨b, s₁, hbegin, h₁⟩ := hcall.bind_inv
  obtain ⟨-, rfl⟩ := hbegin.unique (returns_begin rfl)
  obtain ⟨_, s₂, hsame, h₂⟩ := h₁.bind_inv
  obtain rfl := returned_same hsame
  split_ifs at h₂
  · obtain ⟨_, s₃, hpush, -⟩ := h₂.bind_inv
    rw [Int.toNat_natCast] at hpush
    exact (pushFront_grows v arg).times hpush
  · obtain ⟨_, s₃, hend, h₃⟩ := h₂.bind_inv
    obtain rfl := returned_end hend
    obtain ⟨_, s₄, hsame', h₄⟩ := h₃.bind_inv
    obtain rfl := returned_same hsame'
    split_ifs at h₄
    · obtain ⟨_, s₅, hself, h₅⟩ := h₄.bind_inv
      obtain ⟨rfl, rfl⟩ := returned_self hself
      obtain ⟨_, s₆, hpush, -⟩ := h₅.bind_inv
      rw [Int.toNat_natCast] at hpush
      exact (pushBack_grows v arg).times hpush
    · obtain ⟨p, s₅, hdefined, h₅⟩ := h₄.bind_inv
      obtain ⟨-, rfl⟩ := hdefined.defined_inv
      obtain ⟨z, s₆, hloop, h₆⟩ := h₅.bind_inv
      have hlists : s₆.lists = s₅.lists := by
        refine preserves_loop (P := fun t => t.lists = s₅.lists) ?_ _ _ _ _ _ rfl hloop
        intro turn
        refine Preserves.ite ((insertBefore_lists _ _ _).bind fun node => ?_) (preserves_pure none _)
        exact preserves_pure _ _
      obtain ⟨_, s₇, hadd, -⟩ := h₆.bind_inv
      obtain ⟨hfits, -⟩ := returned_addSize hadd
      rw [hlists] at hfits
      exact .inr hfits

/-! ## `assign` -/

/-- `assign` of an element of the list itself reads a node that `clear` has
deleted. -/
theorem assign_stuck (hinv : Inv s items) (haddr : addr ∈ (items v).map Prod.fst) {n : ℕ}
    (hn : n ≠ 0) : Stuck (assign v n (.node addr)) s := by
  obtain ⟨s₁, hclear, -, hdead⟩ := clear_spec hinv v
  obtain ⟨n, rfl⟩ := Nat.exists_eq_succ_of_ne_zero hn
  have hvalue : s₁.heap.valueAt addr = none := by
    have hgone := hdead addr haddr
    rw [LinkedHeap.Live, Option.not_isSome_iff_eq_none] at hgone
    rw [LinkedHeap.valueAt, hgone, Option.map_none]
  refine hclear.bind_stuck ?_
  rw [Int.toNat_natCast]
  refine Stuck.bind (Stuck.bind (Stuck.bind ?_))
  exact (returns_get s₁).bind_stuck (stuck_defined hvalue s₁)

end LinkedList

end CppProjects
