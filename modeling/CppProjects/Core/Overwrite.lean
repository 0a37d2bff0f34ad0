import Mathlib.Tactic

/-!
# Overwriting part of a list

What a loop has done to an array after some of its steps: a run of cells from
`off` on holds new values, and the cells around it are the old ones.
-/

namespace CppProjects

variable {σ : Type*} {cells xs : List σ} {off i : ℕ} {x : σ}

/-- The cells from `off` on replaced by `xs`. -/
def overwrite (cells : List σ) (off : ℕ) (xs : List σ) : List σ :=
  cells.take off ++ (xs ++ cells.drop (off + xs.length))

@[simp]
theorem overwrite_nil (cells : List σ) (off : ℕ) : overwrite cells off [] = cells := by
  simp [overwrite]

theorem length_overwrite (hfits : off + xs.length ≤ cells.length) :
    (overwrite cells off xs).length = cells.length := by
  simp only [overwrite, List.length_append, List.length_take, List.length_drop]
  omega

theorem getElem?_overwrite (hfits : off + xs.length ≤ cells.length) :
    (overwrite cells off xs)[i]? =
      if i < off then cells[i]? else if i < off + xs.length then xs[i - off]? else cells[i]? := by
  have hoff : (cells.take off).length = off := by
    rw [List.length_take]
    omega
  rw [overwrite, List.getElem?_append, hoff]
  split_ifs with hbefore hinside
  · rw [List.getElem?_take_of_lt hbefore]
  · rw [List.getElem?_append_left (by omega)]
  · rw [List.getElem?_append_right (by omega), List.getElem?_drop]
    congr 1
    omega

theorem getElem?_overwrite_replicate {m : ℕ} (hpos : 0 < m) (hfits : off + m ≤ cells.length) :
    (overwrite cells off (List.replicate m x))[off]? = some x := by
  have hlength : (List.replicate m x).length = m := List.length_replicate
  rw [getElem?_overwrite (by omega), if_neg (lt_irrefl _), if_pos (by omega), Nat.sub_self,
    List.getElem?_replicate_of_lt hpos]

/-- One more cell behind the run. -/
theorem overwrite_set_last (hfits : off + xs.length < cells.length) :
    (overwrite cells off xs).set (off + xs.length) x = overwrite cells off (xs ++ [x]) := by
  have hoff : (cells.take off).length = off := by
    rw [List.length_take]
    omega
  rw [overwrite, List.set_append_right _ _ (by omega), hoff, Nat.add_sub_cancel_left,
    List.set_append_right _ _ le_rfl, Nat.sub_self, List.drop_eq_getElem_cons hfits,
    List.set_cons_zero, overwrite, List.length_append, List.length_singleton, ← add_assoc,
    List.append_assoc, List.singleton_append]

/-- One more cell before the run. -/
theorem overwrite_set_before (hfits : off + 1 + xs.length ≤ cells.length) :
    (overwrite cells (off + 1) xs).set off x = overwrite cells off (x :: xs) := by
  have hlt : off < cells.length := by omega
  have hoff : (cells.take off).length = off := by
    rw [List.length_take]
    omega
  rw [overwrite, List.take_add_one, List.getElem?_eq_getElem hlt, Option.toList_some,
    List.append_assoc, List.set_append_right _ _ (by omega), hoff, Nat.sub_self,
    List.singleton_append, List.set_cons_zero, overwrite, List.length_cons, List.cons_append,
    show off + (xs.length + 1) = off + 1 + xs.length by omega]

/-- One assignment overwrites a run of length one. -/
theorem set_eq_overwrite (hlt : off < cells.length) : cells.set off x = overwrite cells off [x] := by
  have hnil : off + ([] : List σ).length < cells.length := hlt
  simpa using overwrite_set_last (x := x) hnil

theorem take_overwrite {k : ℕ} (hle : k ≤ off) (hoff : off ≤ cells.length) :
    (overwrite cells off xs).take k = cells.take k := by
  rw [overwrite, List.take_append_of_le_length (by rw [List.length_take]; omega), List.take_take,
    min_eq_left hle]

theorem drop_overwrite (hoff : off ≤ cells.length) :
    (overwrite cells off xs).drop off = xs ++ cells.drop (off + xs.length) := by
  have hlength : (cells.take off).length = off := by
    rw [List.length_take]
    omega
  rw [overwrite, List.drop_append_of_le_length hlength.ge, List.drop_of_length_le hlength.le,
    List.nil_append]

/-- An assignment to one of the cells of the run. -/
theorem overwrite_set {j : ℕ} (hj : j < xs.length) (hfits : off + xs.length ≤ cells.length) :
    (overwrite cells off xs).set (off + j) x = overwrite cells off (xs.set j x) := by
  have hoff : (cells.take off).length = off := by
    rw [List.length_take]
    omega
  rw [overwrite, List.set_append_right _ _ (by omega), hoff, Nat.add_sub_cancel_left,
    List.set_append_left _ _ hj, overwrite, List.length_set]

/-- A run in the place of another of the same length. -/
theorem overwrite_overwrite {ys : List σ} (hlength : xs.length = ys.length)
    (hfits : off + xs.length ≤ cells.length) :
    overwrite (overwrite cells off xs) off ys = overwrite cells off ys := by
  have hoff : off ≤ cells.length := by omega
  have htake : (overwrite cells off xs).take off = cells.take off := take_overwrite le_rfl hoff
  have hdrop : (overwrite cells off xs).drop (off + ys.length) = cells.drop (off + ys.length) := by
    rw [← List.drop_drop, drop_overwrite hoff, ← hlength, List.drop_left]
  rw [overwrite, htake, hdrop]
  rfl

/-- An assignment behind the run. -/
theorem overwrite_set_behind {j : ℕ} (hj : off + xs.length ≤ j) (hfits : off + xs.length ≤ cells.length) :
    (overwrite cells off xs).set j x = overwrite (cells.set j x) off xs := by
  have hfits' : off + xs.length ≤ (cells.set j x).length := by rwa [List.length_set]
  apply List.ext_getElem?
  intro k
  rw [getElem?_overwrite hfits', List.getElem?_set, List.getElem?_set, getElem?_overwrite hfits,
    length_overwrite hfits]
  split_ifs <;> first | rfl | omega

/-- Two runs side by side are one. -/
theorem overwrite_append (ys : List σ) (hfits : off + xs.length + ys.length ≤ cells.length) :
    overwrite (overwrite cells off xs) (off + xs.length) ys = overwrite cells off (xs ++ ys) := by
  have hfits' : off + xs.length ≤ cells.length := by omega
  have htake : (overwrite cells off xs).take (off + xs.length) = cells.take off ++ xs := by
    rw [overwrite, ← List.append_assoc, List.take_left']
    rw [List.length_append, List.length_take]
    omega
  have hdrop : (overwrite cells off xs).drop (off + xs.length + ys.length) =
      cells.drop (off + xs.length + ys.length) := by
    rw [← List.drop_drop, ← List.drop_drop (i := xs.length), drop_overwrite (by omega), List.drop_left,
      List.drop_drop]
  rw [overwrite, htake, hdrop, overwrite, List.append_assoc, List.append_assoc, List.length_append,
    Nat.add_assoc]

/-- Of a run that is inside of another one nothing is left. -/
theorem overwrite_covered {inner : ℕ} {ys : List σ} (hfits : off + xs.length ≤ cells.length)
    (hstart : off ≤ inner) (hend : inner + ys.length ≤ off + xs.length) :
    overwrite (overwrite cells inner ys) off xs = overwrite cells off xs := by
  have hlength : (overwrite cells inner ys).length = cells.length := length_overwrite (by omega)
  apply List.ext_getElem?
  intro k
  rw [getElem?_overwrite (by omega), getElem?_overwrite hfits, getElem?_overwrite (by omega)]
  split_ifs <;> first | rfl | omega

/-- A run behind a prefix makes it longer. -/
theorem prefix_overwrite (xs : List σ) {front : List σ} (hfront : front <+: cells) :
    front ++ xs <+: overwrite cells front.length xs := by
  have htake := List.prefix_iff_eq_take.mp hfront
  rw [overwrite, ← htake, ← List.append_assoc]
  exact List.prefix_append ..

end CppProjects
