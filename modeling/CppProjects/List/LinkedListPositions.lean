import CppProjects.List.LinkedListDeque

/-!
# `List` operations at a position

`erase`, `erase` of a range and `insert` beside what they do to the sequence, and
where in the list they do it.
-/

namespace CppProjects

open CInt Program

namespace LinkedList

variable {ι α : Type}

/-! ## Lists made by pushes -/

/-- A list that `push_back` has made. -/
theorem exists_pushed (xs : List α) (hsmall : xs.length < 2 ^ 31) :
    ∃ s items, Returns (xs.forM fun x => pushBack () (.temp x)) start () s ∧
      Inv s (fun _ : Unit => items) ∧ items.map Prod.snd = xs := by
  suffices hpushes : ∀ (xs : List α) (s : Store Unit α) (items : List (ℕ × α)),
      Inv s (fun _ => items) → items.length + xs.length < 2 ^ 31 →
      ∃ s' added, Returns (xs.forM fun x => pushBack () (.temp x)) s () s' ∧
        Inv s' (fun _ => items ++ added) ∧ added.map Prod.snd = xs by
    obtain ⟨s, items, hcall, hinv, hitems⟩ := hpushes xs start [] inv_start (by simpa using hsmall)
    exact ⟨s, items, hcall, hinv, hitems⟩
  intro xs
  induction xs with
  | nil =>
      intro s items hinv _
      refine ⟨s, [], returns_pure () s, ?_, rfl⟩
      simpa using hinv
  | cons x xs ih =>
      intro s items hinv hlength
      rw [List.length_cons] at hlength
      obtain ⟨s₁, hpush, hinv₁⟩ := pushBack_spec (v := ()) hinv (.temp (x := x))
        (show items.length + 1 < 2 ^ 31 by omega)
      rw [show Function.update (fun _ : Unit => items) () (items ++ [(s.heap.top, x)]) =
        fun _ => items ++ [(s.heap.top, x)] from funext fun _ => rfl] at hinv₁
      obtain ⟨s', added, hrest, hinv', hadded⟩ := ih s₁ _ hinv₁ (by simp; omega)
      refine ⟨s', (s.heap.top, x) :: added, hpush.bind hrest, ?_, by simp [hadded]⟩
      simpa using hinv'

variable {s s' : Store ι α} {v : ι} {items : ι → List (ℕ × α)} {front back : List (ℕ × α)}
  {item : ℕ × α} {x : α} {arg : Arg α} {pos first last : Position} {i j n : ℕ}

/-- What a list of a store with the invariant shows determines its nodes. -/
theorem Inv.unique {items' : ι → List (ℕ × α)} (hinv : Inv s items) (hinv' : Inv s items') (v : ι) :
    items v = items' v := by
  have hvalues : (items v).map Prod.snd = (items' v).map Prod.snd :=
    (contents_of_inv hinv v).unique (contents_of_inv hinv' v)
  rw [← List.zip_unzip (items v), ← List.zip_unzip (items' v), List.unzip_eq_map,
    List.unzip_eq_map, (hinv.walk_next v).unique (hinv'.walk_next v), hvalues]

/-- The iterator that is passed for a position before the element `i`. -/
theorem returns_pass_at (hinv : Inv s items) (hpos : pos.index (s.lists v).mSize = i)
    (hi : i ≤ (items v).length) (hplace : items v = [] → pos ≠ .finish) :
    Returns (pos.pass v) s ⟨some (((items v).drop i).map Prod.fst).head?⟩ s := by
  cases pos with
  | «at» index =>
      obtain rfl : index = i := Int.ofNat.inj hpos
      exact returns_at hinv hi
  | finish =>
      have hend : i = (items v).length := by
        have hsize := (hinv.holds v).size
        rw [Position.index] at hpos
        omega
      rw [hend, List.drop_length]
      exact returns_end hinv fun hnil => hplace hnil rfl

variable [DecidableEq ι]

/-! ## Erasing one node -/

/-- `erase` of the node `item` deletes it and no other, leaves a well-formed list
of the others, and returns the position of the node behind it.  On this list
`front`, `back` and `push_back` do what they do on the sequence. -/
def Erases (s : Store ι α) (items : ι → List (ℕ × α)) (v : ι) (front back : List (ℕ × α))
    (item : ℕ × α) : Prop :=
  ∃ s', Returns (erase v ⟨some (some item.1)⟩) s ⟨some (back.map Prod.fst).head?⟩ s' ∧
    Inv s' (Function.update items v (front ++ back)) ∧
    (∀ addr, s'.heap.Live addr ↔ s.heap.Live addr ∧ addr ≠ item.1) ∧
    Shows s' v ((front ++ back).map Prod.snd) ∧
    ∀ y, ∃ s'' node, Returns (pushBack v (.temp y)) s' () s'' ∧
      Inv s'' (Function.update items v (front ++ back ++ [(node, y)]))

theorem Erases.of_inv (hinv : Inv s items) (hitems : items v = front ++ item :: back)
    (herase : Returns (erase v ⟨some (some item.1)⟩) s ⟨some (back.map Prod.fst).head?⟩ s')
    (hinv' : Inv s' (Function.update items v (front ++ back)))
    (hlive : ∀ addr, s'.heap.Live addr ↔ s.heap.Live addr ∧ addr ≠ item.1) :
    Erases s items v front back item := by
  have hshows := hinv'.shows v
  have hsmall := (hinv.holds v).small
  rw [Function.update_self] at hshows
  rw [hitems, List.length_append, List.length_cons] at hsmall
  refine ⟨s', herase, hinv', hlive, hshows, fun y => ?_⟩
  obtain ⟨s'', hpush, hinv''⟩ := pushBack_spec (v := v) hinv' (.temp (x := y)) (by
    rw [Function.update_self, List.length_append]
    omega)
  rw [Function.update_self, Function.update_idem] at hinv''
  exact ⟨s'', _, hpush, hinv''⟩

/-- After `erase` of the last of several nodes `m_tail` still points to it. -/
theorem not_erases_last {before : ℕ × α} (hinv : Inv s items)
    (hitems : items v = front ++ [before, item]) :
    ¬ Erases s items v (front ++ [before]) [] item := by
  rintro ⟨s', herase, hinv', -⟩
  obtain ⟨t, herase', htail, hdead⟩ := erase_last hinv hitems
  obtain ⟨-, rfl⟩ := herase.unique herase'
  have hholds := hinv'.holds v
  rw [Function.update_self] at hholds
  obtain ⟨addr, haddr, htail'⟩ := hholds.exists_tail (by simp)
  rw [htail] at htail'
  obtain rfl := Option.some.inj htail'
  exact hdead (hholds.live haddr)

/-- `erase` does so at every node but the last of several. -/
theorem erase_iff (hinv : Inv s items) (hitems : items v = front ++ item :: back) :
    Erases s items v front back item ↔ back ≠ [] ∨ front = [] := by
  constructor
  · intro herases
    by_contra hlast
    rw [not_or, not_not] at hlast
    obtain ⟨rfl, hfront⟩ := hlast
    obtain ⟨front, before, rfl⟩ := front.eq_nil_or_concat.resolve_left hfront
    rw [List.concat_eq_append] at herases
    exact not_erases_last hinv (by simp [hitems]) herases
  · intro hplace
    by_cases hfront : front = []
    · subst hfront
      obtain ⟨s', herase, hinv', hlive⟩ := erase_head hinv hitems
      exact .of_inv hinv hitems herase hinv' hlive
    · obtain ⟨behind, back, rfl⟩ := List.exists_cons_of_ne_nil (hplace.resolve_right hfront)
      obtain ⟨front, before, rfl⟩ := front.eq_nil_or_concat.resolve_left hfront
      rw [List.concat_eq_append] at hitems ⊢
      have hitems' : items v = front ++ before :: item :: behind :: back := by simp [hitems]
      obtain ⟨s', herase, hinv', hlive⟩ := erase_inner hinv hitems'
      rw [List.append_cons] at hinv'
      exact .of_inv hinv hitems herase hinv' hlive

/-- `erase` of the first of two elements. -/
theorem erase_iff_first : ∃ s items, Inv s (fun _ : Unit => items) ∧ ∃ item other : ℕ × ℕ,
    items = [item, other] ∧ Erases s (fun _ => items) () [] [other] item := by
  obtain ⟨s, items, -, hinv, hvalues⟩ := exists_pushed [1, 2] (by decide)
  obtain ⟨item, rest, rfl, -, hrest⟩ := List.map_eq_cons_iff.mp hvalues
  obtain ⟨other, rest, rfl, -, hnil⟩ := List.map_eq_cons_iff.mp hrest
  obtain rfl := List.map_eq_nil_iff.mp hnil
  exact ⟨s, _, hinv, item, other, rfl, (erase_iff hinv rfl).mpr (.inr rfl)⟩

/-- `push_back(1)`, `push_back(2)`, and then `erase` of the second element. -/
theorem erase_second_breaks : ∃ s items, ∃ item other : ℕ × ℕ,
    Returns ([1, 2].forM fun x => pushBack () (.temp x)) start () s ∧
      Inv s (fun _ : Unit => items) ∧ items = [other, item] ∧
      ¬ Erases s (fun _ => items) () [other] [] item := by
  obtain ⟨s, items, hcall, hinv, hvalues⟩ := exists_pushed [1, 2] (by decide)
  obtain ⟨other, rest, rfl, -, hrest⟩ := List.map_eq_cons_iff.mp hvalues
  obtain ⟨item, rest, rfl, -, hnil⟩ := List.map_eq_cons_iff.mp hrest
  obtain rfl := List.map_eq_nil_iff.mp hnil
  have hitems : [other, item] = [] ++ [other, item] := rfl
  exact ⟨s, _, item, other, hcall, hinv, rfl, not_erases_last hinv hitems⟩

/-! ## Erasing a range -/

/-- `erase` of the range from `first` to `last`, which stand before the elements
`i` and `j`, deletes the nodes between them and no others, and returns `last`. -/
def ErasesRange (s : Store ι α) (items : ι → List (ℕ × α)) (v : ι) (first last : Position)
    (i j : ℕ) : Prop :=
  ∃ it it' s', Returns (first.pass v) s it s ∧ Returns (last.pass v) s it' s ∧
    Returns (eraseRange v it it') s it' s' ∧
    Inv s' (Function.update items v ((items v).take i ++ (items v).drop j)) ∧
    ∀ addr, s'.heap.Live addr ↔
      s.heap.Live addr ∧ addr ∉ (((items v).take j).drop i).map Prod.fst

omit [DecidableEq ι] in
theorem valid_eraseRange (hinv : Inv s items) (hfirst : first.index (s.lists v).mSize = i)
    (hlast : last.index (s.lists v).mSize = j) (hle : i ≤ j) (hj : j ≤ (items v).length) :
    Op.Valid s (.eraseRange v first last : Op ι α) := by
  have hsize := (hinv.holds v).size
  refine ⟨?_, ?_, ?_⟩
  · rw [Position.Valid]
    omega
  · rw [Position.Valid]
    omega
  · omega

/-- The loop follows a pointer of the first node that it deletes, and `end()` of an
empty list cannot be compared. -/
theorem ErasesRange.empty (hinv : Inv s items) (hfirst : first.index (s.lists v).mSize = i)
    (hlast : last.index (s.lists v).mSize = j) (hle : i ≤ j) (hj : j ≤ (items v).length)
    (herases : ErasesRange s items v first last i j) :
    i = j ∧ (items v = [] → first ≠ .finish ∧ last ≠ .finish) := by
  classical
  obtain ⟨it, it', s', hpass, hpass', hcall, -⟩ := herases
  have hvalid := valid_eraseRange hinv hfirst hlast hle hj
  by_contra hbad
  refine (eraseRange_breaks hinv hvalid ?_ hpass hpass').not_returns hcall
  rw [Op.Breaks, hfirst, hlast, (hinv.holds v).mSize_eq_zero]
  by_cases hij : i = j
  · rw [not_and, Classical.not_imp, not_and_or, not_not, not_not] at hbad
    exact .inr (hbad hij)
  · exact .inl (by exact_mod_cast hij)

/-- `erase` does so for empty ranges, if `end()` of an empty list is not one of
the positions. -/
theorem eraseRange_iff (hinv : Inv s items) (hfirst : first.index (s.lists v).mSize = i)
    (hlast : last.index (s.lists v).mSize = j) (hle : i ≤ j) (hj : j ≤ (items v).length) :
    ErasesRange s items v first last i j ↔
      i = j ∧ (items v = [] → first ≠ .finish ∧ last ≠ .finish) := by
  have hvalid := valid_eraseRange hinv hfirst hlast hle hj
  constructor
  · exact ErasesRange.empty hinv hfirst hlast hle hj
  · rintro ⟨rfl, hplace⟩
    obtain ⟨p, hpass, hpass'⟩ :=
      eraseRange_spec hinv hvalid.1 hvalid.2.1 (hfirst.trans hlast.symm) hplace
    refine ⟨_, _, s, hpass, hpass', eraseRange_self p, ?_, fun addr => ?_⟩
    · rwa [List.take_append_drop, Function.update_eq_self]
    · simp

/-- `erase(begin(), begin())` on a list of one element. -/
theorem eraseRange_iff_begin : ∃ s items, Inv s (fun _ : Unit => items) ∧
    items.map Prod.snd = [7] ∧ ErasesRange s (fun _ => items) () (.at 0) (.at 0) 0 0 := by
  obtain ⟨s, items, -, hinv, hvalues⟩ := exists_pushed [7] (by decide)
  refine ⟨s, items, hinv, hvalues,
    (eraseRange_iff hinv rfl rfl le_rfl (Nat.zero_le _)).mpr ⟨rfl, fun _ => ?_⟩⟩
  exact ⟨nofun, nofun⟩

/-- `push_back(7)`, and then `erase` of the whole list. -/
theorem eraseRange_whole_breaks : ∃ s items,
    Returns ([7].forM fun x => pushBack () (.temp x)) start () s ∧
      Inv s (fun _ : Unit => items) ∧ items.length = 1 ∧
      ¬ ErasesRange s (fun _ => items) () (.at 0) .finish 0 1 := by
  obtain ⟨s, items, hcall, hinv, hvalues⟩ := exists_pushed [7] (by decide)
  have hlength : items.length = 1 := by simpa using congrArg List.length hvalues
  refine ⟨s, items, hcall, hinv, hlength, fun herases => ?_⟩
  have hsize := (hinv.holds ()).size
  rw [hlength] at hsize
  have hempty := herases.empty hinv rfl (show Position.finish.index _ = ((1 : ℕ) : ℤ) from hsize) zero_le_one
    hlength.ge
  exact absurd hempty.1 zero_ne_one

/-! ## Inserting -/

/-- `insert` at a position before the element `i` puts `n` copies there and
returns the position of the first of them, or its argument if there is none. -/
def Inserts (s : Store ι α) (items : ι → List (ℕ × α)) (v : ι) (pos : Position) (i n : ℕ) (x : α)
    (arg : Arg α) : Prop :=
  ∃ added it s', added.map Prod.snd = List.replicate n x ∧ Returns (pos.pass v) s it s ∧
    Returns (insert v it n arg) s ⟨some ((added ++ (items v).drop i).map Prod.fst).head?⟩ s' ∧
    Inv s' (Function.update items v ((items v).take i ++ added ++ (items v).drop i))

/-- `end()` of an empty list cannot be compared. -/
theorem not_inserts_nil (hitems : items v = []) (hinv : Inv s items) :
    ¬ Inserts s items v .finish i n x arg := by
  rintro ⟨added, it, s', -, hpass, hcall, -⟩
  have hzero := (hinv.holds v).mSize_eq_zero.mpr hitems
  obtain ⟨rfl, -⟩ := hpass.unique (returns_finish_nil hzero)
  have hstuck : Stuck (insert v ⟨none⟩ n arg) s :=
    (returns_begin rfl).bind_stuck (stuck_same (.inl rfl)).bind
  exact hstuck.not_returns hcall

/-- `insert` at the end of a list with nodes returns the old tail, which is not
the first new node. -/
theorem not_inserts_end (hinv : Inv s items) (hne : items v ≠ []) (harg : Arg.Denotes items x arg)
    (hpos : pos.index (s.lists v).mSize = (items v).length)
    (hsmall : (items v).length + n < 2 ^ 31) :
    ¬ Inserts s items v pos (items v).length n x arg := by
  rintro ⟨added, it, s', -, hpass, hcall, hinv'⟩
  have hat := returns_pass_at hinv hpos le_rfl fun hnil => absurd hnil hne
  rw [List.drop_length] at hat hcall
  obtain ⟨rfl, -⟩ := hpass.unique hat
  obtain ⟨_, t, -, hcall', -⟩ := insert_end hinv hne harg hsmall
  obtain ⟨hresult, -⟩ := hcall.unique hcall'
  obtain ⟨last, hlast, htail⟩ := (hinv.holds v).exists_tail hne
  rw [htail, List.append_nil, Iterator.mk.injEq, Option.some.injEq] at hresult
  have hmem : last ∈ added.map Prod.fst := List.mem_of_head? hresult
  have hnodup := (hinv'.holds v).nodup
  rw [Function.update_self, List.take_length, List.drop_length, List.append_nil,
    List.map_append] at hnodup
  exact List.disjoint_of_nodup_append hnodup hlast hmem

/-- `insert` does so before every node, and at `begin()` of an empty list. -/
theorem insert_iff (hinv : Inv s items) (harg : Arg.Denotes items x arg)
    (hpos : pos.index (s.lists v).mSize = i) (hi : i ≤ (items v).length) :
    Inserts s items v pos i n x arg ↔
      (i < (items v).length ∨ items v = [] ∧ pos ≠ .finish) ∧ (items v).length + n < 2 ^ 31 := by
  have hholds := hinv.holds v
  have hsize := hholds.size
  have hsmall := hholds.small
  constructor
  · intro hinserts
    have hfits : (items v).length + n < 2 ^ 31 := by
      obtain ⟨added, it, s', -, -, hcall, -⟩ := hinserts
      rcases insert_fits hcall with rfl | ⟨-, hfits⟩
      · exact hsmall
      · omega
    refine ⟨?_, hfits⟩
    rcases hi.lt_or_eq with hlt | rfl
    · exact .inl hlt
    · by_cases hne : items v = []
      · refine .inr ⟨hne, ?_⟩
        rintro rfl
        exact not_inserts_nil hne hinv hinserts
      · exact absurd hinserts (not_inserts_end hinv hne harg hpos hfits)
  · rintro ⟨hplace, hfits⟩
    have hat : Returns (pos.pass v) s _ s := returns_pass_at hinv hpos hi fun hnil hfinish => by
      rcases hplace with hlt | ⟨-, hne⟩
      · rw [hnil] at hlt
        exact Nat.not_lt_zero _ hlt
      · exact hne hfinish
    by_cases hzero : i = 0
    · subst hzero
      obtain ⟨added, s', hvalues, hcall, hinv'⟩ := insert_begin hinv harg hfits
      rw [hholds.head, ← List.drop_zero (l := items v)] at hcall
      exact ⟨added, _, s', hvalues, hat, hcall, by simpa using hinv'⟩
    rcases (position_cases hi).resolve_left hzero with
      hend | ⟨front, before, behind, back, rfl, hitems, hdrop⟩
    · obtain ⟨hnil, -⟩ := hplace.resolve_left (by omega)
      rw [hnil] at hend
      exact absurd hend hzero
    · obtain ⟨added, s', hvalues, hcall, hinv'⟩ := insert_inner hinv hitems harg hfits
      have htake : (items v).take (front.length + 1) = front ++ [before] := by
        rw [hitems, List.append_cons]
        exact List.take_left' (by simp)
      rw [← hdrop] at hcall
      refine ⟨added, _, s', hvalues, ?_, hcall, ?_⟩
      · rw [hdrop] at hat
        exact hat
      · rw [htake, hdrop]
        simpa using hinv'

/-- `insert(begin(), 3, 6)` on a list of one element. -/
theorem insert_iff_begin : ∃ s items, Inv s (fun _ : Unit => items) ∧
    items.map Prod.snd = [7] ∧ Inserts s (fun _ => items) () (.at 0) 0 3 6 (.temp 6) := by
  obtain ⟨s, items, -, hinv, hvalues⟩ := exists_pushed [7] (by decide)
  have hlength : items.length = 1 := by simpa using congrArg List.length hvalues
  refine ⟨s, items, hinv, hvalues, (insert_iff hinv .temp rfl (Nat.zero_le _)).mpr ⟨.inl ?_, ?_⟩⟩
  · exact hlength ▸ zero_lt_one
  · rw [hlength]
    decide

/-- `push_back(7)`, and then `insert(end(), 1, 6)`. -/
theorem insert_end_breaks : ∃ s items,
    Returns ([7].forM fun x => pushBack () (.temp x)) start () s ∧
      Inv s (fun _ : Unit => items) ∧ items.length = 1 ∧
      ¬ Inserts s (fun _ => items) () .finish 1 1 6 (.temp 6) := by
  obtain ⟨s, items, hcall, hinv, hvalues⟩ := exists_pushed [7] (by decide)
  have hlength : items.length = 1 := by simpa using congrArg List.length hvalues
  have hne : items ≠ [] := by
    rintro rfl
    cases hlength
  refine ⟨s, items, hcall, hinv, hlength, ?_⟩
  rw [← hlength]
  refine not_inserts_end hinv hne .temp ?_ (by rw [hlength]; decide)
  exact (hinv.holds ()).size

end LinkedList

end CppProjects
