import CppProjects.Vector.MyVectorAliasing
import CppProjects.Vector.MyVectorRuns

/-!
# Erasing a range of a `myVector`

`erase(first, last)` moves the elements behind the range with `memmove`, or one
after the other.  Both do the same, unless an index does not fit the `int` it is
kept in.
-/

namespace CppProjects

open CInt Program

namespace MyVector

variable {ι α : Type} {s s' : Store ι α} {v : ι} {data : Option ℕ} {cells : List (Option α)}
  {xs : List α} {f l : ℕ}

/-! ## The two ways to move the elements -/

/-- `data[f + i] = data[l + i]` for the elements from `l` on. -/
theorem returns_move_left (hdata : s.heap.cellsAt data = some cells) (hrange : f ≤ l) {n : ℕ}
    (hfits : l + n ≤ cells.length) (hcount : n < 2 ^ 31) (hindex : l + n ≤ 2 ^ 31) :
    Returns (forUp (fun i => do
        let target ← intExpr (f + i)
        let source ← intExpr (l + i)
        store data target (← load data source)) 0 n) s ()
      (s.withCells data (overwrite cells f ((cells.drop l).take n))) := by
  have hlength : ((cells.drop l).take n).length = n := by
    rw [List.length_take, List.length_drop]
    omega
  have hloop : Returns (forUp (fun i => do
        let target ← intExpr (f + i)
        let source ← intExpr (l + i)
        store data target (← load data source)) 0 ((cells.drop l).take n).length) s ()
      (s.withCells data (overwrite cells f ((cells.drop l).take n))) := by
    refine returns_forUp_write hdata (by omega) le_rfl (by omega) ?_
    rintro k hk t rfl ht
    rw [hlength] at hk
    have hfits' : f + (((cells.drop l).take n).take k).length ≤ cells.length := by
      rw [List.length_take]
      omega
    -- The source is not among the slots that are written already.
    have hread : (overwrite cells f (((cells.drop l).take n).take k))[l + k]? =
        some cells[l + k] := by
      rw [getElem?_overwrite hfits', if_neg (by omega), if_neg (by rw [List.length_take]; omega),
        List.getElem?_eq_getElem]
    obtain ⟨hlt, hget⟩ := List.getElem?_eq_some_iff.mp hread
    rw [zero_add]
    refine (returns_intExpr ⟨by omega, by omega⟩ _).bind
      ((returns_intExpr ⟨by omega, by omega⟩ _).bind ?_)
    rw [← Nat.cast_add, ← Nat.cast_add]
    refine (returns_load ht hlt).bind ?_
    rw [hget, List.getElem_take, List.getElem_drop]
    exact returns_store ht (by rw [length_overwrite hfits']; omega) _
  rwa [hlength] at hloop

theorem returns_memmove (hdata : s.heap.cellsAt data = some cells) {target source n : ℕ}
    (htarget : target + n ≤ cells.length) (hsource : source + n ≤ cells.length) :
    Returns (memmove data target source n) s ()
      (s.withCells data (overwrite cells target ((cells.drop source).take n))) :=
  (returns_get s).bind ((returns_defined (ArrayHeap.moveAt_of_le hdata htarget hsource) s).bind rfl)

/-! ## What the call needs and does -/

variable [DecidableEq ι]

/-- What the two ways are meant to have in common: they return the first iterator
and leave the same store, in which the range is gone and the capacity as before. -/
def ErasesRange (s : Store ι α) (v : ι) (xs : List α) (f l : ℕ) : Prop :=
  ∃ s', (∀ basic, Returns (eraseRange basic v ⟨(s.vectors v).mData, f⟩ ⟨(s.vectors v).mData, l⟩) s
      ⟨(s.vectors v).mData, f⟩ s') ∧
    Represents s'.heap (s'.vectors v) (xs.take f ++ xs.drop l) ∧
    (s'.vectors v).mSize = xs.length - (l - f) ∧
    (s'.vectors v).mCapacity = (s.vectors v).mCapacity

omit [DecidableEq ι] in
theorem Represents.size {heap : ArrayHeap (Option α)} {this : MyVector}
    (hvector : Represents heap this xs) : this.mSize = xs.length := by
  obtain ⟨hle, cells, -, hlength, hfront⟩ := hvector
  have hsize := congrArg List.length hfront
  rw [List.length_take, List.length_map] at hsize
  omega

omit [DecidableEq ι] in
theorem returns_distance_small {left right : ℕ} (hsmall : left < 2 ^ 31) (hle : right ≤ left) :
    Returns (distance ⟨data, left⟩ ⟨data, right⟩) s ((left : ℤ) - right) s :=
  returns_distance hsmall (by omega)

theorem eraseRange_of_small (hvector : Represents s.heap (s.vectors v) xs) (hrange : f ≤ l)
    (hl : l ≤ xs.length) (hlast : l < 2 ^ 31) (hsize : xs.length ≤ 2 ^ 31)
    (hcount : xs.length - l < 2 ^ 31) : ErasesRange s v xs f l := by
  have hsizes := hvector.size
  obtain ⟨hle, cells, hcells, hlength, hfront⟩ := hvector
  rcases hthis : s.vectors v with ⟨data, size, capacity⟩
  rw [hthis] at hle hcells hlength hfront hsizes
  dsimp only at hle hcells hlength hfront hsizes
  subst hsizes
  have htail : (cells.drop l).take (xs.length - l) = (xs.drop l).map some := by
    rw [← List.drop_take, hfront, List.map_drop]
  have hmoved : f + (xs.length - l) ≤ cells.length := by omega
  have hcells' : (overwrite cells f ((xs.drop l).map some)).length = cells.length :=
    length_overwrite (by rw [List.length_map, List.length_drop]; omega)
  have hrest : toSize ((xs.length : ℤ) - l) = xs.length - l := by
    rw [← Nat.cast_sub hl]
    exact toSize_natCast_small hcount
  have hleft : toSize ((xs.length : ℤ) - ((l : ℤ) - f)) = xs.length - (l - f) := by
    rw [← Nat.cast_sub hrange, ← Nat.cast_sub (by omega)]
    exact toSize_natCast (by omega)
  -- Both ways lead to the same store.
  have hmem : Returns (memmove data f l (xs.length - l)) s ()
      (s.withCells data (overwrite cells f ((xs.drop l).map some))) := by
    rw [← htail]
    exact returns_memmove hcells hmoved (by omega)
  have hloop : Returns (forUp (fun i => do
        let target ← intExpr (f + i)
        let source ← intExpr (l + i)
        store data target (← load data source)) 0 (xs.length - l)) s ()
      (s.withCells data (overwrite cells f ((xs.drop l).map some))) := by
    rw [← htail]
    exact returns_move_left hcells hrange (by omega) hcount (by omega)
  have hupdate := returns_update (v := v) (s := s.withCells data
      (overwrite cells f ((xs.drop l).map some))) hthis
    fun this => { this with mSize := toSize (this.mSize - ((l : ℤ) - f)) }
  rw [hleft] at hupdate
  have hbegin : ∀ {k : ℕ}, k < 2 ^ 31 → Returns (distance ⟨data, k⟩
      (begin' ⟨data, xs.length, capacity⟩)) s k s := fun {k} hk => by
    have hdistance : Returns (distance ⟨data, k⟩ ⟨data, 0⟩) s ((k : ℤ) - (0 : ℕ)) s :=
      returns_distance_small hk (Nat.zero_le k)
    rwa [Nat.cast_zero, sub_zero] at hdistance
  refine ⟨(s.withCells data (overwrite cells f ((xs.drop l).map some))).withVector v
    ⟨data, xs.length - (l - f), capacity⟩, fun basic => ?_, ?_, ?_, ?_⟩
  · rw [hthis]
    refine (returns_self hthis).bind ((hbegin (by omega)).bind ((hbegin hlast).bind
      ((returns_distance_small hlast hrange).bind ?_)))
    rw [hrest]
    cases basic with
    | true => exact hmem.bind (hupdate.bind (returns_pure _ _))
    | false => exact hloop.bind (hupdate.bind (returns_pure _ _))
  · have hfits : ((xs.take f).map some).length = f := by
      rw [List.length_map, List.length_take]
      omega
    have hprefix : (xs.take f).map some <+: cells := by
      rw [List.map_take, ← hfront, List.take_take]
      exact List.take_prefix _ _
    have hfinal := prefix_overwrite ((xs.drop l).map some) hprefix
    rw [hfits, ← List.map_append] at hfinal
    rw [Store.vectors_withVector]
    refine ⟨(by omega : xs.length - (l - f) ≤ capacity), _,
      ArrayHeap.cellsAt_replaceAt hcells hcells', hcells'.trans hlength, ?_⟩
    have htake := List.prefix_iff_eq_take.mp hfinal
    rw [htake]
    congr 1
    rw [List.length_map, List.length_append, List.length_take, List.length_drop]
    dsimp only
    omega
  · rw [Store.vectors_withVector]
  · rw [Store.vectors_withVector, hthis]

/-- An `int` that is not the `size_t` it is made of is smaller by whole turns. -/
theorem toInt_le_of_large {size : ℕ} (hlarge : 2 ^ 31 ≤ size) : toInt size + 2 ^ 32 ≤ size := by
  obtain ⟨⟨-, hhigh⟩, turns, hturns⟩ := toInt_spec size
  omega

omit [DecidableEq ι] in
theorem returned_distance {left right : Iterator} {n : ℤ}
    (hdistance : Returns (distance left right) s n s') :
    n = toInt (left.offset - right.offset) ∧ s' = s := by
  rw [distance] at hdistance
  split_ifs at hdistance
  · exact hdistance.pure_inv
  · cases hdistance

/-- The loop returns only if its indices are `int`s. -/
theorem small_of_returns (hvector : Represents s.heap (s.vectors v) xs)
    (hcapacity : (s.vectors v).mCapacity < 2 ^ 63) (hl : l ≤ xs.length) {first it : Iterator}
    (hreturns : Returns (eraseRange false v first ⟨(s.vectors v).mData, l⟩) s it s') :
    l < 2 ^ 31 ∧ xs.length ≤ 2 ^ 31 ∧ xs.length - l < 2 ^ 31 := by
  have hsize := hvector.size
  have hbound : xs.length < 2 ^ 63 := by have hle := hvector.size_le; omega
  obtain ⟨this, s₁, hself, h₁⟩ := hreturns.bind_inv
  obtain ⟨rfl, rfl⟩ := hself.unique (returns_self rfl)
  obtain ⟨first', s₂, hfirst, h₂⟩ := h₁.bind_inv
  obtain ⟨-, rfl⟩ := returned_distance hfirst
  obtain ⟨last, s₃, hlast, h₃⟩ := h₂.bind_inv
  obtain ⟨hlast', rfl⟩ := returned_distance hlast
  obtain ⟨n, s₄, hn, h₄⟩ := h₃.bind_inv
  obtain ⟨-, rfl⟩ := returned_distance hn
  obtain ⟨u, s₅, hloop, -⟩ := h₄.bind_inv
  have hoffset : last = toInt l := by rw [hlast', begin', sub_zero]
  have hlow : -(2 ^ 31) ≤ last := hoffset ▸ (toInt_spec l).1.1
  have hle : last ≤ l := by
    rw [hoffset]
    rcases Nat.lt_or_ge l (2 ^ 31) with hsmall | hlarge
    · rw [toInt_natCast_small hsmall]
    · have hturn := toInt_le_of_large hlarge
      omega
  obtain ⟨count, hcount⟩ : ∃ count : ℕ, (xs.length : ℤ) - last = count :=
    ⟨((xs.length : ℤ) - last).toNat, by omega⟩
  rw [hsize, hcount, toSize_natCast (by omega)] at hloop
  -- The loop variable comes to `count`, and `last + i` to the last index.
  cases count with
  | zero =>
      have hsame : last = l := by omega
      have hfits := (toInt_spec l).1.2
      rw [← hoffset, hsame] at hfits
      omega
  | succ count =>
      obtain ⟨hfits, t, t', hbody⟩ := hloop.forUp_inv
      obtain ⟨target, t₁, htarget, hbody₁⟩ := hbody.bind_inv
      obtain ⟨source, t₂, hsource, -⟩ := hbody₁.bind_inv
      have hindex := hsource.intExpr_inv.1.2
      have hhigh := hfits.2
      rcases Nat.lt_or_ge l (2 ^ 31) with hsmall | hlarge
      · rw [toInt_natCast_small hsmall] at hoffset
        omega
      · have hturn := toInt_le_of_large hlarge
        omega

/-- Erasing a range does what it is meant to exactly if the index of its end, the
number of elements and the number of those behind it are small enough. -/
theorem erasesRange_iff (hvector : Represents s.heap (s.vectors v) xs)
    (hcapacity : (s.vectors v).mCapacity < 2 ^ 63) (hrange : f ≤ l) (hl : l ≤ xs.length) :
    ErasesRange s v xs f l ↔
      xs.length < 2 ^ 31 ∨ xs.length = 2 ^ 31 ∧ 0 < l ∧ l < 2 ^ 31 := by
  constructor
  · rintro ⟨s', hreturns, -⟩
    have hsmall := small_of_returns hvector hcapacity hl (hreturns false)
    omega
  · intro hsmall
    exact eraseRange_of_small hvector hrange hl (by omega) (by omega) (by omega)

/-- `v.erase(v.begin(), v.begin() + 1)` of three elements. -/
theorem erasesRange_iff_first :
    ErasesRange (single [some 5, some 6, some 7] 3) () [5, 6, 7] 0 1 := by
  have hvector : Represents (single [some 5, some 6, some 7] 3).heap
      ((single [some 5, some 6, some 7] 3).vectors ()) [5, 6, 7] :=
    ⟨le_rfl, [some 5, some 6, some 7], rfl, rfl, rfl⟩
  exact (erasesRange_iff hvector (by decide) (by decide) (by decide)).mpr (.inl (by decide))

/-- Of `2^31` elements the whole range cannot be erased: `last - begin()` is negative
as an `int`. -/
theorem not_erasesRange :
    ¬ ∀ (s : Store Unit ℕ) (xs : List ℕ) (f l : ℕ), Represents s.heap (s.vectors ()) xs →
      (s.vectors ()).mCapacity < 2 ^ 63 → f ≤ l → l ≤ xs.length → ErasesRange s () xs f l := by
  intro hall
  have hlength : (List.replicate (2 ^ 31) 0).length = 2 ^ 31 := List.length_replicate
  have hcells : ((List.replicate (2 ^ 31) 0).map some).length = 2 ^ 31 := by
    rw [List.length_map, hlength]
  have hcapacity : ((single ((List.replicate (2 ^ 31) 0).map some) (2 ^ 31)).vectors ()).mCapacity =
      2 ^ 31 := hcells
  have hvector : Represents (single ((List.replicate (2 ^ 31) 0).map some) (2 ^ 31)).heap
      ((single ((List.replicate (2 ^ 31) 0).map some) (2 ^ 31)).vectors ())
      (List.replicate (2 ^ 31) 0) :=
    ⟨hcapacity.ge, _, ArrayHeap.alloc_arrays_next _ _, rfl, List.take_of_length_le hcells.le⟩
  obtain ⟨s', hreturns, -⟩ := hall _ _ 0 (2 ^ 31) hvector (by rw [hcapacity]; decide)
    (Nat.zero_le _) hlength.ge
  have hsmall := (small_of_returns hvector (by rw [hcapacity]; decide) hlength.ge
    (hreturns false)).1
  exact absurd hsmall (lt_irrefl _)

end MyVector

end CppProjects
