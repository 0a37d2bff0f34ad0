import Mathlib.Data.List.Perm.Basic
import Mathlib.Tactic

/-!
# Changing one element of a list

What a list of threads holds, where they are, and how many of them satisfy a
test, after one of them has moved.
-/

namespace CppProjects

variable {α β : Type*} {l : List α} {i j : ℕ} {x y z : α}

/-- The element at a place is the changed one or an old one. -/
theorem getElem?_set_cases (hget : (l.set i y)[j]? = some z) :
    (j = i ∧ z = y) ∨ (j ≠ i ∧ l[j]? = some z) := by
  by_cases hj : j = i
  · subst hj
    have hlt : j < l.length := by
      rw [← List.length_set]
      exact (List.getElem?_eq_some_iff.mp hget).1
    rw [List.getElem?_set_self hlt] at hget
    exact .inl ⟨rfl, (Option.some.inj hget).symm⟩
  · rw [List.getElem?_set_ne (Ne.symm hj)] at hget
    exact .inr ⟨hj, hget⟩

/-- An element that differs from the one that is changed stays where it is. -/
theorem getElem?_set_of_ne (hget : l[i]? = some x) (hne : z ≠ x) (hother : l[j]? = some z) (y : α) :
    (l.set i y)[j]? = some z := by
  have hplaces : i ≠ j := by
    rintro rfl
    exact hne (Option.some.inj (hother.symm.trans hget))
  rw [List.getElem?_set_ne hplaces, hother]

/-- A property that the new element has is still that of some element. -/
theorem exists_mem_set {P : α → Prop} (hexists : ∃ z ∈ l, P z) (hy : P y) (i : ℕ) :
    ∃ z ∈ l.set i y, P z := by
  obtain ⟨z, hmem, hz⟩ := hexists
  obtain ⟨j, hget⟩ := List.getElem?_of_mem hmem
  by_cases hj : i = j
  · exact ⟨y, List.mem_set (hj ▸ (List.getElem?_eq_some_iff.mp hget).1) y, hy⟩
  · exact ⟨z, List.mem_of_getElem? ((List.getElem?_set_ne hj).trans hget), hz⟩

theorem countP_set_of_getElem? (p : α → Bool) (hget : l[i]? = some x) (y : α) :
    (l.set i y).countP p + (if p x then 1 else 0) = l.countP p + (if p y then 1 else 0) := by
  induction l generalizing i with
  | nil => simp at hget
  | cons head rest ih =>
      cases i with
      | zero =>
          obtain rfl : head = x := by simpa using hget
          simp only [List.set_cons_zero, List.countP_cons]
          omega
      | succ i =>
          have hrest := ih (i := i) (by simpa using hget)
          simp only [List.set_cons_succ, List.countP_cons]
          omega

/-- Two elements at different places are counted twice. -/
theorem one_lt_countP (p : α → Bool) (hi : l[i]? = some x) (hj : l[j]? = some y) (hij : i ≠ j)
    (hx : p x) (hy : p y) : 1 < l.countP p := by
  induction l generalizing i j with
  | nil => simp at hi
  | cons head rest ih =>
      rw [List.countP_cons]
      cases i with
      | zero =>
          cases j with
          | zero => exact absurd rfl hij
          | succ j =>
              obtain rfl : head = x := by simpa using hi
              have hrest : 0 < rest.countP p :=
                List.countP_pos_iff.mpr ⟨y, List.mem_of_getElem? (by simpa using hj), hy⟩
              rw [if_pos hx]
              omega
      | succ i =>
          cases j with
          | zero =>
              obtain rfl : head = y := by simpa using hj
              have hrest : 0 < rest.countP p :=
                List.countP_pos_iff.mpr ⟨x, List.mem_of_getElem? (by simpa using hi), hx⟩
              rw [if_pos hy]
              omega
          | succ j =>
              have hrest := ih (i := i) (j := j) (by simpa using hi) (by simpa using hj)
                (fun heq => hij (congrArg _ heq))
              omega

/-- Where the changed element has the same image the list of images is the same. -/
theorem map_set_of_eq (f : α → β) (hget : l[i]? = some x) (y : α) (heq : f y = f x) :
    (l.set i y).map f = l.map f := by
  obtain ⟨hlt, rfl⟩ := List.getElem?_eq_some_iff.mp hget
  rw [List.map_set, heq, ← List.getElem_map f (h := by simpa using hlt), List.set_getElem_self]

theorem sum_map_set_of_getElem? (weight : α → ℕ) (hget : l[i]? = some x) (y : α) :
    ((l.set i y).map weight).sum + weight x = (l.map weight).sum + weight y := by
  induction l generalizing i with
  | nil => simp at hget
  | cons head rest ih =>
      cases i with
      | zero =>
          obtain rfl : head = x := by simpa using hget
          simp only [List.set_cons_zero, List.map_cons, List.sum_cons]
          omega
      | succ i =>
          have hrest := ih (i := i) (by simpa using hget)
          simp only [List.set_cons_succ, List.map_cons, List.sum_cons]
          omega

/-- What the elements hold, before and after the change, with what the changed one
held and holds. -/
theorem filterMap_set_perm (f : α → Option β) (hget : l[i]? = some x) (y : α) :
    ((f x).toList ++ (l.set i y).filterMap f).Perm ((f y).toList ++ l.filterMap f) := by
  induction l generalizing i with
  | nil => simp at hget
  | cons head rest ih =>
      have hcons : ∀ (z : α) (zs : List α),
          (z :: zs).filterMap f = (f z).toList ++ zs.filterMap f := by
        intro z zs
        rw [List.filterMap_cons]
        cases f z <;> rfl
      cases i with
      | zero =>
          obtain rfl : head = x := by simpa using hget
          rw [List.set_cons_zero, hcons, hcons, ← List.append_assoc, ← List.append_assoc]
          exact List.perm_append_comm.append_right _
      | succ i =>
          have hrest := ih (i := i) (by simpa using hget)
          rw [List.set_cons_succ, hcons, hcons]
          have hswap : ∀ first second third : List β,
              (first ++ (second ++ third)).Perm (second ++ (first ++ third)) := by
            intro first second third
            rw [← List.append_assoc, ← List.append_assoc]
            exact List.perm_append_comm.append_right third
          calc List.Perm _ ((f head).toList ++ ((f x).toList ++ (rest.set i y).filterMap f)) :=
                hswap _ _ _
            List.Perm _ ((f head).toList ++ ((f y).toList ++ rest.filterMap f)) :=
                hrest.append_left _
            List.Perm _ ((f y).toList ++ ((f head).toList ++ rest.filterMap f)) := hswap _ _ _

/-- Where an element stands in a list with one more at its end. -/
theorem concat_eq_append_cons {last : α} {before after : List α}
    (heq : l ++ [last] = before ++ x :: after) :
    (after = [] ∧ last = x) ∨ ∃ rest, after = rest ++ [last] ∧ l = before ++ x :: rest := by
  rcases List.eq_nil_or_concat after with rfl | ⟨rest, other, rfl⟩
  · exact .inl ⟨rfl, (List.append_singleton_inj.mp heq).2⟩
  · rw [List.concat_eq_append, ← List.cons_append, ← List.append_assoc,
      List.append_singleton_inj] at heq
    obtain ⟨rfl, rfl⟩ := heq
    exact .inr ⟨rest, List.concat_eq_append, rfl⟩

/-- One element moves from the second list to the third. -/
theorem append_cons_append_perm (x : α) (first second third : List α) :
    (first ++ (x :: second) ++ third).Perm (first ++ second ++ (x :: third)) := by
  rw [List.append_assoc, List.append_assoc]
  exact List.perm_middle.symm.append_left first

end CppProjects
