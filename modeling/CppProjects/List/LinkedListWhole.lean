import CppProjects.List.LinkedListPositions

/-!
# `List` operations on whole lists

`remove`, `resize`, `merge` and `reserve` beside what they do to the sequence.
-/

namespace CppProjects

open CInt Program

namespace LinkedList

variable {ι α : Type}

/-! ## Removing a value -/

section Filter

variable [DecidableEq α] {x : α} {arg : Arg α} {first second : ℕ × α} {rest : List (ℕ × α)}

/-- The last node does not have the value, no two neighbours have it, and the
argument is not in a node that is deleted before the last comparison. -/
structure Sparse (x : α) (arg : Arg α) (items : List (ℕ × α)) : Prop where
  last : ∀ item ∈ items.getLast?, item.2 ≠ x
  apart : items.IsChain fun item behind => item.2 = x → behind.2 ≠ x
  held : ∀ i addr, items[i]? = some (addr, x) → arg = .node addr → items.length ≤ i + 2

omit [DecidableEq α] in
theorem sparse_nil : Sparse x arg [] := ⟨by simp, .nil, by simp⟩

omit [DecidableEq α] in
theorem sparse_singleton : Sparse x arg [first] ↔ first.2 ≠ x := by
  constructor
  · exact fun hsparse => hsparse.last first rfl
  · exact fun hne => ⟨by simpa using hne, .singleton _, by simp⟩

omit [DecidableEq α] in
/-- A first node with another value makes no difference. -/
theorem sparse_cons_of_ne (hne : first.2 ≠ x) : Sparse x arg (first :: rest) ↔ Sparse x arg rest := by
  cases rest with
  | nil => exact iff_of_true (sparse_singleton.mpr hne) sparse_nil
  | cons second rest =>
      constructor
      · rintro ⟨hlast, hapart, hheld⟩
        refine ⟨by simpa using hlast, (List.isChain_cons_cons.mp hapart).2, fun i addr hget harg => ?_⟩
        simpa using hheld (i + 1) addr hget harg
      · rintro ⟨hlast, hapart, hheld⟩
        refine ⟨by simpa using hlast,
          List.isChain_cons_cons.mpr ⟨fun heq => absurd heq hne, hapart⟩, ?_⟩
        rintro (_ | i) addr hget harg
        · obtain rfl : first = (addr, x) := by simpa using hget
          exact absurd rfl hne
        · simpa using hheld i addr hget harg

omit [DecidableEq α] in
/-- A first node that has the value. -/
theorem sparse_cons_of_eq (heq : first.2 = x) : Sparse x arg (first :: second :: rest) ↔
    (rest = [] ∨ arg ≠ .node first.1) ∧ second.2 ≠ x ∧ Sparse x arg (second :: rest) := by
  constructor
  · rintro ⟨hlast, hapart, hheld⟩
    obtain ⟨hsecond, hapart⟩ := List.isChain_cons_cons.mp hapart
    refine ⟨?_, hsecond heq, by simpa using hlast, hapart, fun i addr hget harg => ?_⟩
    · by_contra hboth
      rw [not_or, not_not] at hboth
      have hlength := hheld 0 first.1 (by simp [← heq]) hboth.2
      exact hboth.1 (List.eq_nil_of_length_eq_zero (by simpa using hlength))
    · simpa using hheld (i + 1) addr hget harg
  · rintro ⟨hplace, hsecond, hlast, hapart, hheld⟩
    refine ⟨by simpa using hlast, List.isChain_cons_cons.mpr ⟨fun _ => hsecond, hapart⟩, ?_⟩
    rintro (_ | i) addr hget harg
    · obtain rfl : first = (addr, x) := by simpa using hget
      rw [hplace.resolve_right (not_not.mpr harg)]
      simp
    · simpa using hheld i addr hget harg

/-- The second loop of `remove` filters where the nodes behind its pointer are
sparse. -/
theorem sweep_eq_filter_iff (rest : List (ℕ × α)) :
    (Sweeps x arg rest ∧ sweep x rest = rest.filter (·.2 ≠ x)) ↔ Sparse x arg rest := by
  fun_induction sweep x rest with
  | case1 => exact iff_of_true ⟨trivial, rfl⟩ sparse_nil
  | case2 first =>
      rw [sparse_singleton]
      constructor
      · exact fun hsweeps => hsweeps.1
      · exact fun hne => ⟨hne, by simp [hne]⟩
  | case3 first second rest heq ih =>
      rw [sparse_cons_of_eq heq, Sweeps, if_pos heq, List.filter_cons_of_neg (by simpa using heq)]
      by_cases hsecond : second.2 = x
      · -- the node behind the deleted one stays, whatever its value
        rw [List.filter_cons_of_neg (by simpa using hsecond)]
        refine iff_of_false ?_ fun hsparse => hsparse.2.1 hsecond
        rintro ⟨-, hfilter⟩
        have hmem : second ∈ rest.filter (·.2 ≠ x) := hfilter ▸ List.mem_cons_self
        exact of_decide_eq_true (List.mem_filter.mp hmem).2 hsecond
      · rw [List.filter_cons_of_pos (by simpa using hsecond), sparse_cons_of_ne hsecond, ← ih,
          List.cons_inj_right]
        tauto
  | case4 first second rest hne ih =>
      rw [sparse_cons_of_ne hne, ← ih, Sweeps, if_neg hne,
        List.filter_cons_of_pos (by simpa using hne), List.cons_inj_right]

end Filter

variable [DecidableEq ι] {s s' : Store ι α} {v w : ι} {items : ι → List (ℕ × α)} {x : α}
  {arg : Arg α} {n : ℕ}

section Remove

variable [DecidableEq α]

/-- `remove` leaves a well-formed list of the elements that do not have the value. -/
def Filters (s : Store ι α) (items : ι → List (ℕ × α)) (v : ι) (x : α) (arg : Arg α) : Prop :=
  ∃ s', Returns (remove v arg) s () s' ∧
    Inv s' (Function.update items v ((items v).filter (·.2 ≠ x)))

/-- `remove` of the value of the first element. -/
theorem not_filters_head {node : ℕ × α} {rest : List (ℕ × α)} (hinv : Inv s items)
    (hitems : items v = node :: rest) (harg : Arg.Denotes items node.2 arg) :
    ¬ Filters s items v node.2 arg := by
  rintro ⟨s', hcall, hinv'⟩
  exact (remove_dangling hinv hitems harg hcall).not_wellFormed (wellFormed_of_inv hinv' v)

/-- `remove` filters the lists that do not begin with the value, do not end with
it, and do not have it in neighbours. -/
theorem remove_iff (hinv : Inv s items) (harg : Arg.Denotes items x arg) :
    Filters s items v x arg ↔
      (∀ item ∈ (items v).head?, item.2 ≠ x) ∧ Sparse x arg (items v) := by
  cases hitems : items v with
  | nil =>
      refine iff_of_true ⟨s, remove_empty hinv hitems, ?_⟩ ⟨by simp, sparse_nil⟩
      rw [hitems, List.filter_nil, ← hitems, Function.update_eq_self]
      exact hinv
  | cons node rest =>
      by_cases hnode : node.2 = x
      · subst hnode
        refine iff_of_false (not_filters_head hinv hitems harg) ?_
        exact fun hright => hright.1 node rfl rfl
      · rw [sparse_cons_of_ne hnode, ← sweep_eq_filter_iff]
        constructor
        · rintro ⟨s', hcall, hinv'⟩
          rw [hitems, List.filter_cons_of_pos (by simpa using hnode)] at hinv'
          by_cases hsweeps : Sweeps x arg rest
          · obtain ⟨t, hcall', ht⟩ := remove_spec hinv hitems harg hnode hsweeps
            obtain ⟨-, rfl⟩ := hcall.unique hcall'
            have hsame := ht.unique hinv' v
            rw [Function.update_self, Function.update_self, List.cons_inj_right] at hsame
            exact ⟨by simpa using hnode, hsweeps, hsame⟩
          · exact absurd hcall (remove_stuck hinv hitems harg hnode hsweeps).not_returns
        · rintro ⟨-, hsweeps, hfilter⟩
          obtain ⟨s', hcall, hinv'⟩ := remove_spec hinv hitems harg hnode hsweeps
          refine ⟨s', hcall, ?_⟩
          rwa [hitems, List.filter_cons_of_pos (by simpa using hnode), ← hfilter]

/-- `remove(2)` on a list of 1, 2 and 3. -/
theorem remove_iff_middle : ∃ s items, Inv s (fun _ : Unit => items) ∧
    items.map Prod.snd = [1, 2, 3] ∧ Filters s (fun _ => items) () 2 (.temp 2) := by
  obtain ⟨s, items, -, hinv, hvalues⟩ := exists_pushed [1, 2, 3] (by decide)
  refine ⟨s, items, hinv, hvalues, (remove_iff hinv .temp).mpr ?_⟩
  obtain ⟨first, rest, rfl, hfirst, hrest⟩ := List.map_eq_cons_iff.mp hvalues
  obtain ⟨second, rest, rfl, hsecond, hrest⟩ := List.map_eq_cons_iff.mp hrest
  obtain ⟨third, rest, rfl, hthird, hnil⟩ := List.map_eq_cons_iff.mp hrest
  obtain rfl := List.map_eq_nil_iff.mp hnil
  refine ⟨?_, ?_⟩
  · simp [hfirst]
  · rw [sparse_cons_of_ne (by simp [hfirst]), sparse_cons_of_eq hsecond, sparse_singleton, hthird]
    simp

/-- `push_back(7)`, and then `remove(7)`. -/
theorem remove_head_breaks : ∃ s items,
    Returns ([7].forM fun x => pushBack () (.temp x)) start () s ∧
      Inv s (fun _ : Unit => items) ∧ ¬ Filters s (fun _ => items) () 7 (.temp 7) := by
  obtain ⟨s, items, hcall, hinv, hvalues⟩ := exists_pushed [7] (by decide)
  obtain ⟨node, rest, rfl, hnode, -⟩ := List.map_eq_cons_iff.mp hvalues
  refine ⟨s, _, hcall, hinv, ?_⟩
  rw [← hnode]
  exact not_filters_head hinv rfl .temp

end Remove

/-! ## Resizing -/

/-- `resize` leaves the first `n` elements, and default values behind them up to
`n`. -/
def Resizes [Inhabited α] (s : Store ι α) (items : ι → List (ℕ × α)) (v : ι) (n : ℕ) : Prop :=
  ∃ s' added, Returns (resize v n) s () s' ∧
    added.map Prod.snd = List.replicate (n - (items v).length) default ∧
    Inv s' (Function.update items v ((items v).take n ++ added))

section Resize

variable [Inhabited α]

/-- How many elements `resize` leaves. -/
theorem length_of_resizes (hinv : Inv s items) (hn : n < 2 ^ 31) (hresizes : Resizes s items v n) :
    n ≤ (items v).length + 1 ∧ (items v).length ≤ n + 1 := by
  obtain ⟨s', added, hcall, hadded, hinv'⟩ := hresizes
  have hlength : added.length = n - (items v).length := by simpa using congrArg List.length hadded
  rcases Nat.lt_or_ge n (items v).length with hlt | hge
  · obtain ⟨t, hcall', ht⟩ := resize_shrink hinv hlt
    obtain ⟨-, rfl⟩ := hcall.unique hcall'
    have hsame := congrArg List.length (ht.unique hinv' v)
    rw [Function.update_self, Function.update_self, List.length_append, List.length_take,
      List.length_take] at hsame
    omega
  · obtain ⟨t, hcall', more, hmore, ht⟩ := resize_grow hinv hge hn
    obtain ⟨-, rfl⟩ := hcall.unique hcall'
    have hcount : more.length = (n - (items v).length + 1) / 2 := by
      simpa using congrArg List.length hmore
    have hsame := congrArg List.length (ht.unique hinv' v)
    rw [Function.update_self, Function.update_self, List.length_append, List.length_append,
      List.length_take] at hsame
    omega

/-- `resize` reaches the sizes that differ from the present one by at most one. -/
theorem resize_iff (hinv : Inv s items) (hn : n < 2 ^ 31) :
    Resizes s items v n ↔ n ≤ (items v).length + 1 ∧ (items v).length ≤ n + 1 := by
  refine ⟨length_of_resizes hinv hn, fun hclose => ?_⟩
  rcases Nat.lt_or_ge n (items v).length with hlt | hge
  · obtain ⟨s', hcall, hinv'⟩ := resize_shrink hinv hlt
    refine ⟨s', [], hcall, ?_, ?_⟩
    · rw [Nat.sub_eq_zero_of_le hlt.le]
      rfl
    · rw [List.append_nil]
      convert hinv' using 3
      omega
  · obtain ⟨s', hcall, added, hadded, hinv'⟩ := resize_grow hinv hge hn
    refine ⟨s', added, hcall, ?_, ?_⟩
    · rw [hadded]
      congr 1
      omega
    · rwa [List.take_of_length_le hge]

/-- `resize(1)` of an empty list. -/
theorem resize_iff_one : Resizes (start : Store Unit ℕ) (fun _ => []) () 1 :=
  (resize_iff inv_start (by decide)).mpr (by decide)

/-- `resize(2)` of an empty list. -/
theorem resize_two_breaks : ¬ Resizes (start : Store Unit ℕ) (fun _ => []) () 2 := by
  intro hresizes
  have hlength := length_of_resizes inv_start (by decide) hresizes
  exact absurd hlength (by decide)

end Resize

/-! ## Merging -/

/-- `merge` moves the elements of the second list behind those of the first. -/
def Merges (s : Store ι α) (items : ι → List (ℕ × α)) (v w : ι) : Prop :=
  ∃ s', Returns (merge v w) s () s' ∧
    Inv s' (Function.update (Function.update items v (items v ++ items w)) w [])

/-- `merge` of two lists does so if neither is empty and an `int` can hold the
sum of their sizes. -/
theorem merge_iff (hinv : Inv s items) (hne : v ≠ w) : Merges s items v w ↔
    items v ≠ [] ∧ items w ≠ [] ∧ (items v).length + (items w).length < 2 ^ 31 := by
  constructor
  · rintro ⟨s', hcall, -⟩
    have hboth : ¬ (items v = [] ∨ items w = []) := fun hempty =>
      (merge_stuck hinv hempty).not_returns hcall
    rw [not_or] at hboth
    refine ⟨hboth.1, hboth.2, ?_⟩
    by_contra hlarge
    exact (merge_overflow hinv hboth.1 hboth.2 (not_lt.mp hlarge)).not_returns hcall
  · rintro ⟨hv, hw, hsmall⟩
    exact merge_spec hne hinv hv hw hsmall

/-- Two lists of one element each. -/
theorem merge_iff_singletons : ∃ (s : Store Bool ℕ) (items : Bool → List (ℕ × ℕ)),
    Inv s items ∧ (∀ v, (items v).length = 1) ∧ Merges s items true false := by
  obtain ⟨s, items, hinv, hlength⟩ :
      ∃ (s : Store Bool ℕ) (items : Bool → List (ℕ × ℕ)), Inv s items ∧ ∀ v, (items v).length = 1 := by
    obtain ⟨s₁, -, hinv₁⟩ := pushBack_spec (v := true) inv_start (.temp (x := 1)) (by simp)
    obtain ⟨s₂, -, hinv₂⟩ := pushBack_spec (v := false) hinv₁ (.temp (x := 2)) (by simp)
    refine ⟨s₂, _, hinv₂, ?_⟩
    rintro (_ | _) <;> rfl
  refine ⟨s, items, hinv, hlength, (merge_iff hinv (by decide)).mpr ⟨?_, ?_, ?_⟩⟩
  · exact List.ne_nil_of_length_pos (by rw [hlength]; exact zero_lt_one)
  · exact List.ne_nil_of_length_pos (by rw [hlength]; exact zero_lt_one)
  · rw [hlength, hlength]
    decide

/-- `merge` of two empty lists. -/
theorem merge_empty_breaks : ¬ Merges (start : Store Bool ℕ) (fun _ => []) true false := by
  rintro ⟨s', hcall, -⟩
  exact (merge_stuck inv_start (.inl rfl)).not_returns hcall

/-! ## Reversing -/

end LinkedList

end CppProjects
