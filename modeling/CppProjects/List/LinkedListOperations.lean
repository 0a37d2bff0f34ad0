import CppProjects.List.LinkedListInvariant

/-!
# The operations of `List`

What each operation does to the nodes of the lists where it keeps the invariant,
and where it goes wrong.
-/

namespace CppProjects

open CInt Program

namespace LinkedList

variable {ι α : Type} {s s' : Store ι α} {v w : ι} {items items' : ι → List (ℕ × α)}
  {new front back : List (ℕ × α)} {x : α} {arg : Arg α} {this this' : LinkedList}
  {heap heap' : LinkedHeap α} {addr : ℕ} {item : ℕ × α}

/-! ## Counted pushes -/

theorem Arg.Denotes.mono (harg : Arg.Denotes items x arg) (hsub : ∀ w, items w ⊆ items' w) :
    Arg.Denotes items' x arg := by
  cases harg with
  | temp => exact .temp
  | node hmem => exact .node (hsub _ hmem)

variable [DecidableEq ι]

theorem subset_update (hsub : items v ⊆ new) (w : ι) : items w ⊆ Function.update items v new w := by
  by_cases hw : w = v
  · subst hw
    rwa [Function.update_self]
  · rw [Function.update_of_ne hw]
    exact fun _ hmem => hmem

/-- `n` times `push_back`. -/
theorem pushBack_times (hinv : Inv s items) (harg : Arg.Denotes items x arg) {n : ℕ}
    (hsmall : (items v).length + n < 2 ^ 31) :
    ∃ s', Returns (forUp (fun _ => pushBack v arg) 0 n) s () s' ∧
      ∃ added, added.map Prod.snd = List.replicate n x ∧
        Inv s' (Function.update items v (items v ++ added)) := by
  refine exists_forUp (P := fun k s => ∃ added, added.map Prod.snd = List.replicate k x ∧
    Inv s (Function.update items v (items v ++ added))) le_rfl (show (0 : ℤ) + n < 2 ^ 31 by omega) ?_
    ⟨[], rfl, ?_⟩
  · rintro k hk s ⟨added, hvalues, hs⟩
    have hlength : added.length = k := by simpa using congrArg List.length hvalues
    have harg' := harg.mono (subset_update (v := v) (List.subset_append_left (items v) added))
    obtain ⟨s', hpush, hs'⟩ := pushBack_spec (v := v) hs harg'
      (by rw [Function.update_self, List.length_append]; omega)
    refine ⟨s', hpush, added ++ [(s.heap.top, x)], ?_, ?_⟩
    · rw [List.map_append, hvalues, List.replicate_succ']
      rfl
    · rwa [Function.update_self, Function.update_idem, List.append_assoc] at hs'
  · rwa [List.append_nil, Function.update_eq_self]

/-- `n` times `push_front`. -/
theorem pushFront_times (hinv : Inv s items) (harg : Arg.Denotes items x arg) {n : ℕ}
    (hsmall : (items v).length + n < 2 ^ 31) :
    ∃ s', Returns (forUp (fun _ => pushFront v arg) 0 n) s () s' ∧
      ∃ added, added.map Prod.snd = List.replicate n x ∧
        Inv s' (Function.update items v (added ++ items v)) := by
  refine exists_forUp (P := fun k s => ∃ added, added.map Prod.snd = List.replicate k x ∧
    Inv s (Function.update items v (added ++ items v))) le_rfl (show (0 : ℤ) + n < 2 ^ 31 by omega) ?_
    ⟨[], rfl, ?_⟩
  · rintro k hk s ⟨added, hvalues, hs⟩
    have hlength : added.length = k := by simpa using congrArg List.length hvalues
    have harg' := harg.mono (subset_update (v := v) (List.subset_append_right added (items v)))
    obtain ⟨s', hpush, hs'⟩ := pushFront_spec (v := v) hs harg'
      (by rw [Function.update_self, List.length_append]; omega)
    refine ⟨s', hpush, (s.heap.top, x) :: added, ?_, ?_⟩
    · rw [List.map_cons, hvalues, List.replicate_succ]
    · rwa [Function.update_self, Function.update_idem, ← List.cons_append] at hs'
  · rwa [List.nil_append, Function.update_eq_self]

/-! ## Whole lists -/

/-- `clear` deletes every node of the list. -/
theorem clear_spec (hinv : Inv s items) (v : ι) :
    ∃ s', Returns (clear v) s () s' ∧ Inv s' (Function.update items v []) ∧
      ∀ addr ∈ (items v).map Prod.fst, ¬ s'.heap.Live addr := by
  refine exists_discard (exists_loop (k := (items v).length)
    (P := fun k _ (t : Store ι α) => ∃ own, own.length = k ∧ Inv t (Function.update items v own) ∧
      ∀ addr ∈ (items v).map Prod.fst, t.heap.Live addr → addr ∈ own.map Prod.fst)
    (Q := fun _ (t : Store ι α) => Inv t (Function.update items v []) ∧
      ∀ addr ∈ (items v).map Prod.fst, ¬ t.heap.Live addr) ?_ ?_ ?_
    ⟨items v, rfl, by rwa [Function.update_eq_self], fun _ haddr _ => haddr⟩) ()
  · rintro k - s ⟨own, hlength, hs, hlive⟩
    have hsize := (hs.holds v).size
    rw [Function.update_self] at hsize
    obtain ⟨s', hpop, hs', hlive'⟩ := popBack_spec hs v
    rw [Function.update_self, Function.update_idem] at hs'
    rw [Function.update_self] at hlive'
    refine ⟨(), s', (returns_self rfl).bind ?_, own.dropLast, by simp [hlength], hs', ?_⟩
    · rw [if_pos (by omega)]
      exact hpop.bind (returns_pure _ s')
    · intro addr haddr hstill
      obtain ⟨hbefore, hkept⟩ := hlive' addr hstill
      exact hkept (hlive addr haddr hbefore)
  · rintro - s ⟨own, hlength, hs, hlive⟩
    obtain rfl := List.length_eq_zero_iff.mp hlength
    have hsize := (hs.holds v).size
    rw [Function.update_self] at hsize
    refine ⟨s, (returns_self rfl).bind ?_, hs, fun addr haddr hstill => ?_⟩
    · rw [if_neg (by simp [hsize])]
      exact returns_pure _ s
    · cases hlive addr haddr hstill
  · have hsmall := (hinv.holds v).small
    rw [maxSteps]
    omega

theorem assign_spec (hinv : Inv s items) {n : ℕ} (hn : n < 2 ^ 31)
    (harg : Arg.Denotes (Function.update items v []) x arg) :
    ∃ s', Returns (assign v n arg) s () s' ∧
      ∃ added, added.map Prod.snd = List.replicate n x ∧ Inv s' (Function.update items v added) := by
  obtain ⟨s₁, hclear, hs₁, -⟩ := clear_spec hinv v
  obtain ⟨s', hpushes, added, hvalues, hs'⟩ := pushBack_times (v := v) hs₁ harg (n := n)
    (by simpa using hn)
  rw [Function.update_self, Function.update_idem, List.nil_append] at hs'
  exact ⟨s', hclear.bind hpushes, added, hvalues, hs'⟩

/-- `resize` to less goes half the way, since `m_size` shrinks while the index
grows. -/
theorem resize_shrink [Inhabited α] (hinv : Inv s items) {n : ℕ} (hlt : n < (items v).length) :
    ∃ s', Returns (resize v n) s () s' ∧ Inv s' (Function.update items v
      ((items v).take ((items v).length - ((items v).length - n + 1) / 2))) := by
  have hsize := (hinv.holds v).size
  have hsmall := (hinv.holds v).small
  simp only [resize]
  refine (exists_bind (returns_self rfl) ?_)
  rw [if_pos (by omega)]
  refine exists_discard (exists_loop (k := ((items v).length - n + 1) / 2)
    (P := fun k (i : ℤ) s => ∃ j : ℕ, i = j ∧ j + k = ((items v).length - n + 1) / 2 ∧
      Inv s (Function.update items v ((items v).take ((items v).length - j))))
    (Q := fun _ s => Inv s (Function.update items v
      ((items v).take ((items v).length - ((items v).length - n + 1) / 2)))) ?_ ?_ ?_
    ⟨0, rfl, by omega, by simpa using hinv⟩) ()
  · rintro k _ s ⟨j, rfl, hj, hs⟩
    have hsize := (hs.holds v).size
    rw [Function.update_self, List.length_take] at hsize
    obtain ⟨s', hpop, hs', -⟩ := popBack_spec hs v
    rw [Function.update_self, Function.update_idem, List.dropLast_eq_take, List.length_take,
      List.take_take] at hs'
    refine ⟨_, s', (returns_self rfl).bind ((returns_intExpr ⟨by omega, by omega⟩ s).bind ?_),
      j + 1, by push_cast; rfl, by omega, ?_⟩
    · rw [if_pos (by omega)]
      exact hpop.bind (returns_pure _ s')
    · convert hs' using 3
      omega
  · rintro _ s ⟨j, rfl, hj, hs⟩
    have hsize := (hs.holds v).size
    rw [Function.update_self, List.length_take] at hsize
    rw [add_zero] at hj
    refine ⟨s, (returns_self rfl).bind ((returns_intExpr ⟨by omega, by omega⟩ s).bind ?_), hj ▸ hs⟩
    rw [if_neg (by omega)]
    exact returns_pure _ s
  · rw [maxSteps]
    omega

/-- `resize` to more goes half the way. -/
theorem resize_grow [Inhabited α] (hinv : Inv s items) {n : ℕ} (hge : (items v).length ≤ n)
    (hn : n < 2 ^ 31) :
    ∃ s', Returns (resize v n) s () s' ∧
      ∃ added, added.map Prod.snd = List.replicate ((n - (items v).length + 1) / 2) default ∧
        Inv s' (Function.update items v (items v ++ added)) := by
  have hsize := (hinv.holds v).size
  simp only [resize]
  refine (exists_bind (returns_self rfl) ?_)
  rw [if_neg (by omega)]
  refine exists_discard (exists_loop (k := (n - (items v).length + 1) / 2)
    (P := fun k (i : ℤ) s => ∃ j : ℕ, i = j ∧ j + k = (n - (items v).length + 1) / 2 ∧
      ∃ added, added.map Prod.snd = List.replicate j default ∧
        Inv s (Function.update items v (items v ++ added)))
    (Q := fun _ s => ∃ added,
      added.map Prod.snd = List.replicate ((n - (items v).length + 1) / 2) default ∧
        Inv s (Function.update items v (items v ++ added))) ?_ ?_ ?_
    ⟨0, rfl, by omega, [], rfl, by simpa using hinv⟩) ()
  · rintro k _ s ⟨j, rfl, hj, added, hvalues, hs⟩
    have hsize := (hs.holds v).size
    have hlength : added.length = j := by simpa using congrArg List.length hvalues
    rw [Function.update_self, List.length_append] at hsize
    obtain ⟨s', hpush, hs'⟩ := pushBack_spec (v := v) hs .temp
      (by rw [Function.update_self, List.length_append]; omega)
    rw [Function.update_self, Function.update_idem, List.append_assoc] at hs'
    refine ⟨_, s', (returns_self rfl).bind ((returns_intExpr ⟨by omega, by omega⟩ s).bind ?_),
      j + 1, by push_cast; rfl, by omega, added ++ [(s.heap.top, default)], ?_, hs'⟩
    · rw [if_pos (by omega)]
      exact hpush.bind (returns_pure _ s')
    · rw [List.map_append, hvalues, List.replicate_succ']
      rfl
  · rintro _ s ⟨j, rfl, hj, added, hvalues, hs⟩
    have hsize := (hs.holds v).size
    have hlength : added.length = j := by simpa using congrArg List.length hvalues
    rw [Function.update_self, List.length_append] at hsize
    rw [add_zero] at hj
    refine ⟨s, (returns_self rfl).bind ((returns_intExpr ⟨by omega, by omega⟩ s).bind ?_),
      added, hj ▸ hvalues, hs⟩
    rw [if_neg (by omega)]
    exact returns_pure _ s
  · rw [maxSteps]
    omega

/-! ## Iterators -/

omit [DecidableEq ι] in
/-- `end()` of a list with nodes is null. -/
theorem returns_end (hinv : Inv s items) (hne : items v ≠ []) :
    Returns (end' v) s ⟨some none⟩ s := by
  have hholds := hinv.holds v
  have hnonzero : (s.lists v).mSize ≠ 0 := fun hzero => hne (hholds.mSize_eq_zero.mp hzero)
  obtain ⟨front, last, hitems⟩ := (items v).eq_nil_or_concat.resolve_left hne
  rw [List.concat_eq_append] at hitems
  rw [hitems] at hholds
  have htail : (s.lists v).mTail = some last.1 := by
    rw [hholds.tail]
    simp
  refine (returns_self rfl).bind ?_
  rw [if_neg hnonzero, htail]
  exact (returns_deref (Holds.nodes_eq _ hholds)).bind (returns_pure _ s)

omit [DecidableEq ι] in
theorem Holds.head_ne (hholds : Holds heap this (front ++ item :: back)) (hne : front ≠ []) :
    some item.1 ≠ this.mHead := by
  obtain ⟨first, rest, rfl⟩ := List.exists_cons_of_ne_nil hne
  rw [hholds.head]
  intro heq
  have hmem := hholds.notMem_map
  simp only [List.cons_append, List.map_cons, List.head?_cons, Option.some.injEq] at heq hmem
  exact hmem (heq ▸ List.mem_cons_self)

/-! ## Erasing -/

omit [DecidableEq ι] in
/-- A list without its first node. -/
theorem Holds.cutFirst {first second : ℕ × α}
    (hholds : Holds heap this (first :: second :: back)) :
    Holds ((heap.setPrev second.1 none).free first.1)
      ⟨some second.1, this.mTail, this.mSize + -1⟩ (second :: back) where
  chain := by
    have hchain := hholds.chain
    have hnodup := hholds.nodup
    simp only [List.map_cons] at hchain hnodup ⊢
    exact hchain.cutFirst hnodup (by simp)
  nodup := hholds.nodup.sublist (by simp)
  values := Holds.free_values [] hholds fun _ => LinkedHeap.valueAt_setPrev
  head := by simp
  tail := by
    rw [hholds.tail]
    simp
  size := by
    rw [hholds.size]
    simp
  small := by
    have hsmall := hholds.small
    rw [List.length_cons] at hsmall
    omega

omit [DecidableEq ι] in
/-- A list without a node in the middle. -/
theorem Holds.unlink {before behind : ℕ × α}
    (hholds : Holds heap this (front ++ before :: item :: behind :: back)) :
    Holds ((heap.link before.1 behind.1).free item.1)
      ⟨this.mHead, this.mTail, this.mSize + -1⟩ (front ++ before :: behind :: back) where
  chain := by
    have hchain := hholds.chain
    have hnodup := hholds.nodup
    simp only [List.map_append, List.map_cons] at hchain hnodup ⊢
    exact hchain.unlink hnodup (by simp) (by simp)
  nodup := hholds.nodup.sublist (by simp)
  values := by
    rw [List.append_cons] at hholds ⊢
    exact Holds.free_values _ hholds fun _ => LinkedHeap.valueAt_link
  head := by
    rw [hholds.head]
    cases front <;> rfl
  tail := by
    rw [hholds.tail]
    simp [List.getLast?_append, List.getLast?_cons_cons]
  size := by
    rw [hholds.size]
    simp only [List.length_append, List.length_cons]
    omega
  small := by
    have hsmall := hholds.small
    simp only [List.length_append, List.length_cons] at hsmall ⊢
    omega

theorem erase_head (hinv : Inv s items) (hitems : items v = item :: back) :
    ∃ s', Returns (erase v ⟨some (some item.1)⟩) s ⟨some (back.map Prod.fst).head?⟩ s' ∧
      Inv s' (Function.update items v back) ∧
      ∀ addr, s'.heap.Live addr ↔ s.heap.Live addr ∧ addr ≠ item.1 := by
  have hholds := hinv.holds v
  rw [hitems] at hholds
  have hlive : s.heap.Live item.1 := hholds.live (by simp)
  have hhead : (s.lists v).mHead = some item.1 := by
    rw [hholds.head]
    rfl
  refine exists_bind (returns_begin rfl) (exists_bind returns_same ?_)
  rw [hhead, if_pos (by simp)]
  cases back with
  | nil =>
      have hthis := hholds.eq_of_singleton
      have hthis' : (s.withHeap (s.heap.free item.1)).lists v = ⟨some item.1, some item.1, 1⟩ := hthis
      refine exists_bind (returns_self hthis)
        ⟨_, ?_, hinv.popped_singleton hitems, fun _ => LinkedHeap.live_free⟩
      rw [if_neg (by simp)]
      refine (returns_delete hlive).bind ((returns_update hthis' _).bind ?_)
      refine (returns_addSize_withList _ ⟨none, none, 1⟩ (show FitsInt (1 + -1) by decide)).bind ?_
      exact returns_begin (Store.lists_withList _)
  | cons second back =>
      have hsize := hholds.size
      have hsmall := hholds.small
      rw [List.length_cons, List.length_cons] at hsize hsmall
      have hfits : FitsInt ((s.lists v).mSize + -1) := ⟨by omega, by omega⟩
      have hsecond : s.heap.Live second.1 := hholds.live (by simp)
      have hnode : s.heap.nodes item.1 = _ := Holds.nodes_eq [] hholds
      have hset : Returns (setPrev (some second.1) none)
          (s.withList v { s.lists v with mHead := some second.1 }) ()
          ((s.withHeap (s.heap.setPrev second.1 none)).withList v
            { s.lists v with mHead := some second.1 }) := returns_setPrev hsecond
      have hdelete : Returns (delete (some item.1))
          ((s.withHeap (s.heap.setPrev second.1 none)).withList v
            { s.lists v with mHead := some second.1 }) ()
          ((s.withHeap ((s.heap.setPrev second.1 none).free item.1)).withList v
            { s.lists v with mHead := some second.1 }) := returns_delete hlive.setPrev
      have hadd : Returns (addSize v (-1))
          ((s.withHeap ((s.heap.setPrev second.1 none).free item.1)).withList v
            { s.lists v with mHead := some second.1 }) ()
          ((s.withHeap ((s.heap.setPrev second.1 none).free item.1)).withList v
            ⟨some second.1, (s.lists v).mTail, (s.lists v).mSize + -1⟩) :=
        returns_addSize_withList _ _ hfits
      refine exists_bind (returns_self rfl)
        ⟨_, ?_, hinv.shrunk hholds.cutFirst (by simp [hitems]) ?_, fun _ => ?_⟩
      · rw [if_pos (by omega), hhead]
        refine (returns_deref hnode).bind ((returns_update rfl _).bind (hset.bind (hdelete.bind ?_)))
        exact hadd.bind (returns_begin (Store.lists_withList _))
      · intro addr haddr
        rw [hitems] at haddr
        simp only [List.map_cons, List.mem_cons, not_or] at haddr
        rw [LinkedHeap.nodes_free_of_ne haddr.1, LinkedHeap.setPrev,
          LinkedHeap.nodes_modify_of_ne haddr.2.1]
      · exact LinkedHeap.live_free.trans (and_congr_left' LinkedHeap.live_setPrev)

omit [DecidableEq ι] in
/-- A position that is neither the first node nor the end. -/
theorem returns_same_inner (hinv : Inv s items) (front : List (ℕ × α))
    (hitems : items v = front ++ item :: back) (hne : front ≠ []) :
    Returns (Iterator.same ⟨some (some item.1)⟩ ⟨some (s.lists v).mHead⟩) s false s ∧
      Returns (end' v) s ⟨some none⟩ s ∧
      Returns (Iterator.same ⟨some (some item.1)⟩ ⟨some none⟩) s false s := by
  have hholds := hinv.holds v
  have hend := returns_end (v := v) hinv (by simp [hitems])
  rw [hitems] at hholds
  have hbegin : Returns (Iterator.same ⟨some (some item.1)⟩ ⟨some (s.lists v).mHead⟩) s _ s :=
    returns_same
  rw [decide_eq_false (hholds.head_ne hne)] at hbegin
  exact ⟨hbegin, hend, returns_same⟩

/-- The stores in which a node has been taken out of the middle of a list. -/
theorem Inv.unlinked {before behind : ℕ × α} (hinv : Inv s items)
    (hitems : items v = front ++ before :: item :: behind :: back) :
    Inv ((s.withHeap ((s.heap.link before.1 behind.1).free item.1)).withList v
        ⟨(s.lists v).mHead, (s.lists v).mTail, (s.lists v).mSize + -1⟩)
      (Function.update items v (front ++ before :: behind :: back)) := by
  have hholds := hinv.holds v
  rw [hitems] at hholds
  have hsub : (front ++ before :: behind :: back).Sublist (items v) := by simp [hitems]
  refine hinv.shrunk (v := v) hholds.unlink hsub.subset fun addr haddr => ?_
  rw [hitems] at haddr
  simp only [List.map_append, List.map_cons, List.mem_append, List.mem_cons, not_or] at haddr
  rw [LinkedHeap.nodes_free_of_ne haddr.2.2.1, LinkedHeap.nodes_link_of_ne haddr.2.1 haddr.2.2.2.1]

/-- `erase` takes a node out of the middle. -/
theorem erase_inner {before behind : ℕ × α} (hinv : Inv s items)
    (hitems : items v = front ++ before :: item :: behind :: back) :
    ∃ s', Returns (erase v ⟨some (some item.1)⟩) s ⟨some (some behind.1)⟩ s' ∧
      Inv s' (Function.update items v (front ++ before :: behind :: back)) ∧
        ∀ addr, s'.heap.Live addr ↔ s.heap.Live addr ∧ addr ≠ item.1 := by
  have hholds := hinv.holds v
  obtain ⟨hbegin, hend, hsame⟩ := returns_same_inner hinv (front ++ [before])
    (show items v = front ++ [before] ++ item :: behind :: back by simp [hitems]) (by simp)
  rw [hitems] at hholds
  have hsize := hholds.size
  have hsmall := hholds.small
  simp only [List.length_append, List.length_cons] at hsize hsmall
  have hfits : FitsInt ((s.lists v).mSize + -1) := ⟨by omega, by omega⟩
  have hbefore : s.heap.Live before.1 := hholds.live (by simp)
  have hitem : s.heap.Live item.1 := hholds.live (by simp)
  have hbehind : s.heap.Live behind.1 := hholds.live (by simp)
  rw [List.append_cons] at hholds
  have hnode := Holds.nodes_eq _ hholds
  rw [List.map_append, List.map_singleton, List.getLast?_concat] at hnode
  have hmem := hholds.notMem_map
  simp only [List.map_append, List.map_cons, List.mem_append, List.mem_cons, not_or] at hmem
  have hnode' : (s.heap.setNext before.1 (some behind.1)).nodes item.1 = _ :=
    (LinkedHeap.nodes_modify_of_ne hmem.1.2.1).trans hnode
  have hnode'' : (s.heap.link before.1 behind.1).nodes item.1 = _ :=
    (LinkedHeap.nodes_modify_of_ne hmem.2.1).trans hnode'
  have hadd : Returns (addSize v (-1)) (s.withHeap ((s.heap.link before.1 behind.1).free item.1)) ()
      ((s.withHeap ((s.heap.link before.1 behind.1).free item.1)).withList v
        ⟨(s.lists v).mHead, (s.lists v).mTail, (s.lists v).mSize + -1⟩) := returns_addSize rfl hfits
  refine exists_bind (returns_begin rfl) (exists_bind hbegin ?_)
  rw [if_neg (by simp)]
  refine exists_bind hend (exists_bind hsame ?_)
  rw [if_neg (by simp)]
  refine exists_bind (returns_defined rfl s) (exists_bind (returns_deref hnode)
    ⟨_, ?_, hinv.unlinked hitems, fun _ => LinkedHeap.live_free.trans
      (and_congr_left' (LinkedHeap.live_setPrev.trans LinkedHeap.live_setNext))⟩)
  rw [if_pos (by simp)]
  refine (returns_setNext hbefore).bind ((returns_deref hnode').bind ?_)
  rw [if_pos (by simp)]
  refine (returns_setPrev hbehind.setNext).bind ((returns_deref hnode'').bind ?_)
  exact (returns_delete hitem.setNext.setPrev).bind (hadd.bind (returns_pure _ _))

/-- `erase` of the last node leaves `m_tail` where it was. -/
theorem erase_last {before : ℕ × α} (hinv : Inv s items)
    (hitems : items v = front ++ [before, item]) :
    ∃ s', Returns (erase v ⟨some (some item.1)⟩) s ⟨some none⟩ s' ∧
      (s'.lists v).mTail = some item.1 ∧ ¬ s'.heap.Live item.1 := by
  have hholds := hinv.holds v
  obtain ⟨hbegin, hend, hsame⟩ := returns_same_inner hinv (front ++ [before])
    (show items v = front ++ [before] ++ item :: [] by simp [hitems]) (by simp)
  rw [hitems] at hholds
  have hsize := hholds.size
  have hsmall := hholds.small
  simp only [List.length_append, List.length_cons, List.length_nil] at hsize hsmall
  have hfits : FitsInt ((s.lists v).mSize + -1) := ⟨by omega, by omega⟩
  have hbefore : s.heap.Live before.1 := hholds.live (by simp)
  have hitem : s.heap.Live item.1 := hholds.live (by simp)
  have htail : (s.lists v).mTail = some item.1 := by
    rw [hholds.tail]
    simp
  rw [List.append_cons] at hholds
  have hnode := Holds.nodes_eq _ hholds
  rw [List.map_append, List.map_singleton, List.getLast?_concat] at hnode
  have hmem := hholds.notMem_map
  simp only [List.append_nil, List.map_append, List.map_cons, List.map_nil, List.mem_append,
    List.mem_singleton, not_or] at hmem
  have hnode' : (s.heap.setNext before.1 none).nodes item.1 = _ :=
    (LinkedHeap.nodes_modify_of_ne hmem.2).trans hnode
  refine exists_bind (returns_begin rfl) (exists_bind hbegin ?_)
  rw [if_neg (by simp)]
  refine exists_bind hend (exists_bind hsame ?_)
  rw [if_neg (by simp)]
  have hadd : Returns (addSize v (-1)) (s.withHeap ((s.heap.setNext before.1 none).free item.1)) ()
      ((s.withHeap ((s.heap.setNext before.1 none).free item.1)).withList v
        ⟨(s.lists v).mHead, (s.lists v).mTail, (s.lists v).mSize + -1⟩) := returns_addSize rfl hfits
  refine exists_bind (returns_defined rfl s) (exists_bind (returns_deref hnode)
    ⟨(s.withHeap ((s.heap.setNext before.1 none).free item.1)).withList v
      ⟨(s.lists v).mHead, (s.lists v).mTail, (s.lists v).mSize + -1⟩, ?_, ?_, ?_⟩)
  · rw [if_pos (by simp)]
    refine (returns_setNext hbefore).bind ((returns_deref hnode').bind ?_)
    rw [if_neg (by simp)]
    refine (returns_deref hnode').bind ((returns_delete hitem.setNext).bind ?_)
    exact hadd.bind (returns_pure _ _)
  · rw [Store.lists_withList]
    exact htail
  · simp [LinkedHeap.Live]

/-- `erase(end())` does nothing. -/
theorem erase_end (hinv : Inv s items) (hne : items v ≠ []) :
    Returns (erase v ⟨some none⟩) s ⟨some none⟩ s := by
  obtain ⟨first, -, hhead⟩ := (hinv.holds v).exists_head hne
  refine (returns_begin rfl).bind (returns_same.bind ?_)
  rw [hhead, if_neg (by simp)]
  refine (returns_end hinv hne).bind (returns_same.bind ?_)
  rw [if_pos (by simp)]
  exact returns_pure _ s

theorem erase_deletes (hinv : Inv s items) (hmem : item ∈ items v) :
    ∃ result s', Returns (erase v ⟨some (some item.1)⟩) s result s' ∧ ¬ s'.heap.Live item.1 := by
  obtain ⟨front, back, hitems⟩ := List.append_of_mem hmem
  rcases front.eq_nil_or_concat with rfl | ⟨front, before, rfl⟩
  · obtain ⟨s', herase, -, hlive⟩ := erase_head hinv hitems
    exact ⟨_, s', herase, fun hstill => ((hlive _).mp hstill).2 rfl⟩
  · rw [List.concat_eq_append, List.append_assoc, List.singleton_append] at hitems
    cases back with
    | nil =>
        obtain ⟨s', herase, -, hdead⟩ := erase_last hinv hitems
        exact ⟨_, s', herase, hdead⟩
    | cons behind back =>
        obtain ⟨s', herase, -, hlive⟩ := erase_inner hinv hitems
        exact ⟨_, s', herase, fun hstill => ((hlive _).mp hstill).2 rfl⟩

theorem eraseRange_self (p : Option ℕ) :
    Returns (eraseRange v ⟨some p⟩ ⟨some p⟩) s ⟨some p⟩ s := by
  refine Returns.bind (Returns.loop_exit (returns_same.bind ?_)) (returns_pure _ s)
  rw [if_pos (by simp)]
  exact returns_pure _ s

/-- The loop of `erase` on a range follows a pointer of the node it has deleted. -/
theorem eraseRange_stuck (hinv : Inv s items) (hmem : item ∈ items v) {last : Option ℕ}
    (hne : some item.1 ≠ last) : Stuck (eraseRange v ⟨some (some item.1)⟩ ⟨some last⟩) s := by
  obtain ⟨result, s', herase, hdead⟩ := erase_deletes hinv hmem
  refine Stuck.bind (Stuck.loop (returns_same.bind_stuck ?_))
  rw [if_neg (by simpa using hne)]
  refine herase.bind_stuck (Stuck.bind ?_)
  refine (returns_defined rfl s').bind_stuck (Stuck.bind (stuck_deref ?_))
  rwa [LinkedHeap.Live, Option.not_isSome_iff_eq_none] at hdead

/-! ## Inserting -/

omit [DecidableEq ι] in
/-- A list with a new node in the middle. -/
theorem Holds.insert {before behind : ℕ × α}
    (hholds : Holds heap this (front ++ before :: behind :: back))
    (hsmall : (front ++ before :: behind :: back).length + 1 < 2 ^ 31) (x : α) :
    Holds (((heap.alloc x).link before.1 heap.top).link heap.top behind.1)
      ⟨this.mHead, this.mTail, this.mSize + 1⟩
      (front ++ before :: (heap.top, x) :: behind :: back) where
  chain := by
    have hchain := hholds.chain
    have hnodup := hholds.nodup
    simp only [List.map_append, List.map_cons] at hchain hnodup ⊢
    exact hchain.insert hnodup (by simp) (by simp) x
  nodup := by
    have hfresh : heap.top ∉ (front ++ before :: behind :: back).map Prod.fst := fun hmem =>
      ne_top_of_live (hholds.live hmem) rfl
    have hnodup := hholds.nodup
    rw [List.append_cons] at hnodup hfresh ⊢
    rw [List.map_append, List.map_cons, List.nodup_middle, List.nodup_cons, ← List.map_append]
    exact ⟨hfresh, hnodup⟩
  values := by
    intro item hitem
    rw [LinkedHeap.valueAt_link, LinkedHeap.valueAt_link]
    rw [List.append_cons, List.mem_append, List.mem_cons] at hitem
    rcases hitem with hmem | rfl | hmem
    · exact (hholds.alloc x).values item (by rw [List.append_cons]; exact List.mem_append_left _ hmem)
    · exact (holds_alloc heap x).values _ (by simp)
    · exact (hholds.alloc x).values item (by rw [List.append_cons]; exact List.mem_append_right _ hmem)
  head := by
    rw [hholds.head]
    cases front <;> rfl
  tail := by
    rw [hholds.tail]
    simp [List.getLast?_append, List.getLast?_cons_cons]
  size := by
    rw [hholds.size]
    simp only [List.length_append, List.length_cons]
    omega
  small := by
    simp only [List.length_append, List.length_cons] at hsmall ⊢
    omega

/-- One turn of `insert`.  The fields of the list are set after the last one, so
that the invariant is about a store that has them already. -/
theorem insertBefore_spec {before behind : ℕ × α} (hinv : Inv (s.withList v this) items)
    (hitems : items v = front ++ before :: behind :: back) (harg : Arg.Denotes items x arg)
    (hsmall : (items v).length + 1 < 2 ^ 31) :
    ∃ heap, Returns (insertBefore arg (some behind.1)) s (some s.heap.top) (s.withHeap heap) ∧
      Inv ((s.withHeap heap).withList v ⟨this.mHead, this.mTail, this.mSize + 1⟩)
        (Function.update items v (front ++ before :: (s.heap.top, x) :: behind :: back)) := by
  have hholds := hinv.holds v
  rw [Store.lists_withList, Store.heap_withList, hitems] at hholds
  rw [hitems] at hsmall
  have hbefore : (s.heap.alloc x).Live before.1 := (hholds.alloc x).live (by simp)
  have hbehind : (s.heap.alloc x).Live behind.1 := (hholds.alloc x).live (by simp)
  have hnew : (s.heap.alloc x).Live s.heap.top := (holds_alloc s.heap x).live (by simp)
  refine ⟨((s.heap.alloc x).link before.1 s.heap.top).link s.heap.top behind.1, ?_, ?_⟩
  · have hnode := hholds.alloc x
    rw [List.append_cons] at hnode
    have hnode := Holds.nodes_eq _ hnode
    rw [List.map_append, List.map_singleton, List.getLast?_concat] at hnode
    have hset : Returns (setPrev (some s.heap.top) (some before.1)) (s.withHeap (s.heap.alloc x)) ()
        (s.withHeap ((s.heap.alloc x).setPrev s.heap.top (some before.1))) := returns_setPrev hnew
    have hset' : Returns (setNext (some before.1) (some s.heap.top))
        (s.withHeap ((s.heap.alloc x).setPrev s.heap.top (some before.1))) ()
        (s.withHeap ((s.heap.alloc x).link before.1 s.heap.top)) := by
      rw [LinkedHeap.link, ← LinkedHeap.setPrev_setNext]
      exact returns_setNext hbefore.setPrev
    have hlinked : Returns (setNext (some s.heap.top) (some behind.1))
        (s.withHeap ((s.heap.alloc x).link before.1 s.heap.top)) ()
        (s.withHeap (((s.heap.alloc x).link before.1 s.heap.top).setNext s.heap.top
          (some behind.1))) := returns_setNext hnew.setNext.setPrev
    have hlinked' : Returns (setPrev (some behind.1) (some s.heap.top))
        (s.withHeap (((s.heap.alloc x).link before.1 s.heap.top).setNext s.heap.top
          (some behind.1))) ()
        (s.withHeap (((s.heap.alloc x).link before.1 s.heap.top).link s.heap.top behind.1)) :=
      returns_setPrev hbehind.setNext.setPrev.setNext
    have hnewNode : Returns (newNode arg) s (some s.heap.top) (s.withHeap (s.heap.alloc x)) :=
      hinv.returns_newNode harg rfl
    refine hnewNode.bind ?_
    refine (returns_deref hnode).bind ?_
    refine hset.bind ?_
    refine hset'.bind ?_
    refine hlinked.bind ?_
    refine hlinked'.bind ?_
    exact returns_pure _ _
  · have hpushed := hinv.pushed (v := v) (hholds.insert hsmall x) (by
      intro addr haddr
      rw [hitems]
      simp only [List.map_append, List.map_cons, List.mem_append, List.mem_cons] at haddr ⊢
      tauto) (by
      intro addr hne hnot
      rw [hitems] at hnot
      rw [Store.heap_withList] at hne ⊢
      simp only [List.map_append, List.map_cons, List.mem_append, List.mem_cons, not_or] at hnot
      rw [LinkedHeap.nodes_link_of_ne hne hnot.2.2.1, LinkedHeap.nodes_link_of_ne hnot.2.1 hne,
        LinkedHeap.nodes_alloc_of_ne hne])
    rwa [Store.withList_withHeap, Store.withList_withList] at hpushed

/-- The loop of `insert` in the middle. -/
theorem insert_loop {before behind : ℕ × α} (hinv : Inv s items)
    (hitems : items v = front ++ before :: behind :: back) (harg : Arg.Denotes items x arg) {n : ℕ}
    (hsmall : (items v).length + n < 2 ^ 31) :
    ∃ z t, Returns (loop (fun ((i, pointer) : ℤ × Option ℕ) => do
      if i < (n : ℤ) then
        let node ← insertBefore arg pointer
        return some (i + 1, node)
      else return none) maxSteps (0, some behind.1)) s z t ∧ t.lists = s.lists ∧
      ∃ added, added.map Prod.snd = List.replicate n x ∧
        z.2 = ((added ++ behind :: back).map Prod.fst).head? ∧
        Inv (t.withList v ⟨(s.lists v).mHead, (s.lists v).mTail, (s.lists v).mSize + n⟩)
          (Function.update items v (front ++ before :: (added ++ behind :: back))) := by
  refine exists_loop (k := n)
    (P := fun k (turn : ℤ × Option ℕ) (t : Store ι α) => ∃ (j : ℕ) (added : List (ℕ × α)), turn.1 = j ∧
      j + k = n ∧ turn.2 = ((added ++ behind :: back).map Prod.fst).head? ∧ t.lists = s.lists ∧
      added.map Prod.snd = List.replicate j x ∧
      Inv (t.withList v ⟨(s.lists v).mHead, (s.lists v).mTail, (s.lists v).mSize + j⟩)
        (Function.update items v (front ++ before :: (added ++ behind :: back))))
    (Q := fun turn (t : Store ι α) => t.lists = s.lists ∧ ∃ added,
      added.map Prod.snd = List.replicate n x ∧
      turn.2 = ((added ++ behind :: back).map Prod.fst).head? ∧
      Inv (t.withList v ⟨(s.lists v).mHead, (s.lists v).mTail, (s.lists v).mSize + n⟩)
        (Function.update items v (front ++ before :: (added ++ behind :: back)))) ?_ ?_ ?_ ?_
  · rintro k ⟨_, _⟩ t ⟨j, added, rfl, hj, rfl, hlists, hvalues, ht⟩
    have hlength : added.length = j := by simpa using congrArg List.length hvalues
    have harg' : Arg.Denotes (Function.update items v
        (front ++ before :: (added ++ behind :: back))) x arg := by
      refine harg.mono (subset_update ?_)
      intro item hmem
      rw [hitems] at hmem
      simp only [List.mem_append, List.mem_cons] at hmem ⊢
      tauto
    obtain ⟨next, rest, hnext⟩ : ∃ next rest, added ++ behind :: back = next :: rest :=
      List.exists_cons_of_ne_nil (by simp)
    have hhead : ((added ++ behind :: back).map Prod.fst).head? = some next.1 := by
      rw [hnext]
      rfl
    have hplace : Function.update items v (front ++ before :: (added ++ behind :: back)) v =
        front ++ before :: next :: rest := by rw [Function.update_self, hnext]
    obtain ⟨heap, hturn, hinv'⟩ := insertBefore_spec ht hplace harg' (by
        rw [Function.update_self]
        rw [hitems] at hsmall
        simp only [List.length_append, List.length_cons] at hsmall ⊢
        omega)
    refine ⟨(((j : ℤ) + 1), some t.heap.top), t.withHeap heap, ?_, j + 1,
      (t.heap.top, x) :: added, by push_cast; rfl, by omega, rfl, hlists, ?_, ?_⟩
    · rw [hhead]
      dsimp only
      rw [if_pos (by omega)]
      exact hturn.bind (returns_pure _ _)
    · rw [List.map_cons, hvalues, List.replicate_succ]
    · rw [Function.update_idem] at hinv'
      rw [List.cons_append, hnext]
      push_cast
      rwa [← add_assoc]
  · rintro ⟨_, _⟩ t ⟨j, added, rfl, hj, rfl, hlists, hvalues, ht⟩
    rw [add_zero] at hj
    subst hj
    refine ⟨t, ?_, hlists, added, hvalues, rfl, ht⟩
    dsimp only
    rw [if_neg (by omega)]
    exact returns_pure _ t
  · rw [maxSteps]
    omega
  · refine ⟨0, [], rfl, by omega, rfl, rfl, rfl, ?_⟩
    rw [List.nil_append, ← hitems, Function.update_eq_self, Nat.cast_zero, add_zero,
      Store.withList_self s rfl]
    exact hinv

/-- `insert` in the middle. -/
theorem insert_inner {before behind : ℕ × α} (hinv : Inv s items)
    (hitems : items v = front ++ before :: behind :: back) (harg : Arg.Denotes items x arg) {n : ℕ}
    (hsmall : (items v).length + n < 2 ^ 31) :
    ∃ added s', added.map Prod.snd = List.replicate n x ∧
      Returns (insert v ⟨some (some behind.1)⟩ n arg) s
        ⟨some ((added ++ behind :: back).map Prod.fst).head?⟩ s' ∧
      Inv s' (Function.update items v (front ++ before :: (added ++ behind :: back))) := by
  obtain ⟨hbegin, hend, hsame⟩ := returns_same_inner hinv (front ++ [before])
    (show items v = front ++ [before] ++ behind :: back by simp [hitems]) (by simp)
  obtain ⟨⟨i, _⟩, t, hloop, hlists, added, hvalues, rfl, ht⟩ := insert_loop hinv hitems harg hsmall
  have hsize := (hinv.holds v).size
  have hfits : FitsInt ((s.lists v).mSize + n) := ⟨by omega, by omega⟩
  have hthis : t.lists v = s.lists v := by rw [hlists]
  refine ⟨added, _, hvalues, ?_, ht⟩
  refine (returns_begin rfl).bind (hbegin.bind ?_)
  rw [if_neg (by simp)]
  refine hend.bind (hsame.bind ?_)
  rw [if_neg (by simp)]
  refine (returns_defined rfl s).bind (hloop.bind ?_)
  exact (returns_addSize hthis hfits).bind (returns_pure _ _)

/-- `insert` at `begin()`. -/
theorem insert_begin (hinv : Inv s items) (harg : Arg.Denotes items x arg) {n : ℕ}
    (hsmall : (items v).length + n < 2 ^ 31) :
    ∃ added s', added.map Prod.snd = List.replicate n x ∧
      Returns (insert v ⟨some (s.lists v).mHead⟩ n arg) s
        ⟨some ((added ++ items v).map Prod.fst).head?⟩ s' ∧
      Inv s' (Function.update items v (added ++ items v)) := by
  obtain ⟨s', hpush, added, hvalues, hs'⟩ := pushFront_times (v := v) hinv harg hsmall
  have hhead := (hs'.holds v).head
  rw [Function.update_self] at hhead
  refine ⟨added, s', hvalues, ?_, hs'⟩
  refine (returns_begin rfl).bind (returns_same.bind ?_)
  rw [if_pos (by simp), Int.toNat_natCast, ← hhead]
  exact hpush.bind (returns_begin rfl)

/-- `insert` at `end()` of a list with nodes returns the old tail. -/
theorem insert_end (hinv : Inv s items) (hne : items v ≠ []) (harg : Arg.Denotes items x arg)
    {n : ℕ} (hsmall : (items v).length + n < 2 ^ 31) :
    ∃ added s', added.map Prod.snd = List.replicate n x ∧
      Returns (insert v ⟨some none⟩ n arg) s ⟨some (s.lists v).mTail⟩ s' ∧
      Inv s' (Function.update items v (items v ++ added)) := by
  obtain ⟨first, -, hhead⟩ := (hinv.holds v).exists_head hne
  obtain ⟨s', hpush, added, hvalues, hs'⟩ := pushBack_times (v := v) hinv harg hsmall
  refine ⟨added, s', hvalues, ?_, hs'⟩
  refine (returns_begin rfl).bind (returns_same.bind ?_)
  rw [hhead, if_neg (by simp)]
  refine (returns_end hinv hne).bind (returns_same.bind ?_)
  rw [if_pos (by simp), Int.toNat_natCast]
  exact (returns_self rfl).bind (hpush.bind (returns_pure _ _))

/-! ## Two lists -/

/-- The stores in which the nodes of one list have gone to another. -/
theorem Inv.merged (hne : v ≠ w) (hinv : Inv s items) {last first : ℕ}
    (hlast : last ∈ (items v).map Prod.fst) (hfirst : first ∈ (items w).map Prod.fst)
    (hholds : Holds (s.heap.link last first) this (items v ++ items w)) :
    Inv (((s.withHeap (s.heap.link last first)).withList v this).withList w ⟨none, none, 0⟩)
      (Function.update (Function.update items v (items v ++ items w)) w []) := by
  have hemptied := hinv.replace (v := w) (holds_nil s.heap) (by simp) (fun _ _ _ _ => rfl)
  have hmerged := hemptied.replace (v := v) hholds ?_ ?_
  · rw [Function.update_comm hne.symm] at hmerged
    rw [Store.withList_comm _ hne]
    exact hmerged
  · intro u hu addr haddr hmem
    by_cases hu' : u = w
    · subst hu'
      rw [Function.update_self] at haddr
      cases haddr
    · rw [Function.update_of_ne hu'] at haddr
      rw [List.map_append, List.mem_append] at hmem
      rcases hmem with hmem | hmem
      · exact hinv.disjoint u v hu haddr hmem
      · exact hinv.disjoint u w hu' haddr hmem
  · intro u hu addr haddr
    by_cases hu' : u = w
    · subst hu'
      rw [Function.update_self] at haddr
      cases haddr
    · rw [Function.update_of_ne hu'] at haddr
      refine LinkedHeap.nodes_link_of_ne ?_ ?_
      · rintro rfl
        exact hinv.disjoint u v hu haddr hlast
      · rintro rfl
        exact hinv.disjoint u w hu' haddr hfirst

/-- `merge` of two lists with nodes. -/
theorem merge_spec (hne : v ≠ w) (hinv : Inv s items) (hv : items v ≠ []) (hw : items w ≠ [])
    (hsmall : (items v).length + (items w).length < 2 ^ 31) :
    ∃ s', Returns (merge v w) s () s' ∧
      Inv s' (Function.update (Function.update items v (items v ++ items w)) w []) := by
  have hfirst := hinv.holds v
  have hsecond := hinv.holds w
  obtain ⟨last, hlast, htail⟩ := hfirst.exists_tail hv
  obtain ⟨first, hfirstmem, hhead⟩ := hsecond.exists_head hw
  have hsize := hfirst.size
  have hsize' := hsecond.size
  have hfits : FitsInt ((s.lists v).mSize + (s.lists w).mSize) := ⟨by omega, by omega⟩
  have happend := hfirst.append hsecond (hinv.disjoint v w hne) htail hhead hsmall
  have hset : Returns (setNext (some last) (some first)) s ()
      (s.withHeap (s.heap.setNext last (some first))) := returns_setNext (hfirst.live hlast)
  have hset' : Returns (setPrev (some first) (some last))
      (s.withHeap (s.heap.setNext last (some first))) () (s.withHeap (s.heap.link last first)) :=
    returns_setPrev (hsecond.live hfirstmem).setNext
  have hadd := returns_addSize_withList (s := s.withHeap (s.heap.link last first)) v
    { s.lists v with mTail := (s.lists w).mTail } hfits
  have hother : ((s.withHeap (s.heap.link last first)).withList v ⟨(s.lists v).mHead,
      (s.lists w).mTail, (s.lists v).mSize + (s.lists w).mSize⟩).lists w = s.lists w :=
    Function.update_of_ne hne.symm ..
  refine ⟨_, ?_, hinv.merged hne hlast hfirstmem happend⟩
  refine (returns_self rfl).bind ?_
  refine (returns_self rfl).bind ?_
  rw [htail, hhead]
  refine hset.bind ?_
  refine hset'.bind ?_
  refine (returns_update rfl _).bind ?_
  refine hadd.bind ?_
  refine (returns_update hother _).bind ?_
  exact returns_update_withList _

/-- A list with nodes that is merged with itself loses them. -/
theorem merge_self (hinv : Inv s items) (hv : items v ≠ [])
    (hsmall : (items v).length + (items v).length < 2 ^ 31) :
    ∃ s', Returns (merge v v) s () s' ∧ Inv s' (Function.update items v []) := by
  have hholds := hinv.holds v
  obtain ⟨last, hlast, htail⟩ := hholds.exists_tail hv
  obtain ⟨first, hfirst, hhead⟩ := hholds.exists_head hv
  have hsize := hholds.size
  have hfits : FitsInt ((s.lists v).mSize + (s.lists v).mSize) := ⟨by omega, by omega⟩
  have hset : Returns (setNext (some last) (some first)) s ()
      (s.withHeap (s.heap.setNext last (some first))) := returns_setNext (hholds.live hlast)
  have hset' : Returns (setPrev (some first) (some last))
      (s.withHeap (s.heap.setNext last (some first))) () (s.withHeap (s.heap.link last first)) :=
    returns_setPrev (hholds.live hfirst).setNext
  have hadd := returns_addSize_withList (s := s.withHeap (s.heap.link last first)) v
    { s.lists v with mTail := some last } hfits
  have hfinal : Inv ((s.withHeap (s.heap.link last first)).withList v ⟨none, none, 0⟩)
      (Function.update items v []) := by
    refine hinv.replace (holds_nil _) (by simp) fun w hw addr haddr => ?_
    refine LinkedHeap.nodes_link_of_ne ?_ ?_
    · rintro rfl
      exact hinv.disjoint w v hw haddr hlast
    · rintro rfl
      exact hinv.disjoint w v hw haddr hfirst
  refine ⟨_, ?_, hfinal⟩
  refine (returns_self rfl).bind ?_
  refine (returns_self rfl).bind ?_
  rw [htail, hhead]
  refine hset.bind ?_
  refine hset'.bind ?_
  refine (returns_update rfl _).bind ?_
  refine hadd.bind ?_
  refine (returns_update_withList _).bind ?_
  exact returns_update_withList _

/-- `merge` follows the null end of an empty list. -/
theorem merge_stuck (hinv : Inv s items) (hempty : items v = [] ∨ items w = []) :
    Stuck (merge v w) s := by
  have hfirst := hinv.holds v
  have hsecond := hinv.holds w
  refine (returns_self rfl).bind_stuck ?_
  refine (returns_self rfl).bind_stuck ?_
  by_cases hv : items v = []
  · rw [hv] at hfirst
    rw [hfirst.eq_of_nil]
    exact (stuck_assignTo_null _).bind
  · obtain ⟨last, hlast, htail⟩ := hfirst.exists_tail hv
    rw [hempty.resolve_left hv] at hsecond
    rw [htail, hsecond.eq_of_nil]
    refine (returns_setNext (hfirst.live hlast)).bind_stuck ?_
    exact (stuck_assignTo_null _).bind

/-- The size a `merge` would give does not fit an `int`. -/
theorem merge_overflow (hinv : Inv s items) (hv : items v ≠ []) (hw : items w ≠ [])
    (hlarge : 2 ^ 31 ≤ (items v).length + (items w).length) : Stuck (merge v w) s := by
  have hfirst := hinv.holds v
  have hsecond := hinv.holds w
  obtain ⟨last, hlast, htail⟩ := hfirst.exists_tail hv
  obtain ⟨first, hfirstmem, hhead⟩ := hsecond.exists_head hw
  have hsize := hfirst.size
  have hsize' := hsecond.size
  have hfits : ¬ FitsInt ((s.lists v).mSize + (s.lists w).mSize) := fun hfits => by
    have hbelow := hfits.2
    omega
  have hset : Returns (setNext (some last) (some first)) s ()
      (s.withHeap (s.heap.setNext last (some first))) := returns_setNext (hfirst.live hlast)
  have hset' : Returns (setPrev (some first) (some last))
      (s.withHeap (s.heap.setNext last (some first))) () (s.withHeap (s.heap.link last first)) :=
    returns_setPrev (hsecond.live hfirstmem).setNext
  have hadd : Stuck (addSize v (s.lists w).mSize) ((s.withHeap (s.heap.link last first)).withList v
      { s.lists v with mTail := (s.lists w).mTail }) := stuck_addSize (Store.lists_withList _) hfits
  refine (returns_self rfl).bind_stuck ?_
  refine (returns_self rfl).bind_stuck ?_
  rw [htail, hhead]
  refine hset.bind_stuck ?_
  refine hset'.bind_stuck ?_
  refine (returns_update rfl _).bind_stuck ?_
  exact hadd.bind

omit [DecidableEq ι] in
/-- The same lists under other names. -/
theorem Inv.permute (hinv : Inv s items) (names : Equiv.Perm ι) :
    Inv ⟨s.heap, s.lists ∘ names⟩ (items ∘ names) where
  holds := fun u => hinv.holds (names u)
  disjoint := fun _ _ hne => hinv.disjoint _ _ fun heq => hne (names.injective heq)

theorem swap_spec (hinv : Inv s items) (v w : ι) :
    ∃ s', Returns (swap v w) s () s' ∧
      Inv s' (Function.update (Function.update items w (items v)) v (items w)) := by
  by_cases hne : v = w
  · subst hne
    refine ⟨s, ?_, ?_⟩
    · rw [swap, if_pos rfl]
      exact returns_pure () s
    · rwa [Function.update_idem, Function.update_eq_self]
  · have hpermuted := hinv.permute (Equiv.swap v w)
    rw [Equiv.comp_swap_eq_update, Equiv.comp_swap_eq_update] at hpermuted
    refine ⟨_, ?_, hpermuted⟩
    rw [swap, if_neg hne]
    refine (returns_self rfl).bind ?_
    refine (returns_self rfl).bind ?_
    refine (returns_update rfl _).bind ?_
    exact returns_update rfl _

/-! ## Reversing -/

omit [DecidableEq ι] in
/-- The loop of `reserve` exchanges the pointers of the nodes on its way. -/
theorem returns_flipAll {p : Option ℕ} {addrs : List ℕ} (fuel : ℕ)
    (hwalk : LinkedHeap.Walk s.heap.prevAt p addrs) (hnodup : addrs.Nodup)
    (hfuel : addrs.length < fuel) :
    ∃ z, Returns (loop (fun pointer => do
      if pointer = none then return none
      else
        let node ← deref pointer
        setNext pointer node.prev
        setPrev pointer node.next
        return some node.prev) fuel p) s z (s.withHeap (s.heap.flipAll addrs)) := by
  obtain ⟨fuel, rfl⟩ : ∃ rest, fuel = rest + 1 := ⟨fuel - 1, by omega⟩
  induction addrs generalizing s p fuel with
  | nil =>
      cases hwalk
      refine ⟨none, Returns.loop_exit ?_⟩
      rw [if_pos rfl]
      exact returns_pure _ s
  | cons addr addrs ih =>
      rcases hwalk with _ | ⟨hfollow, hrest⟩
      obtain ⟨node, hnode, rfl⟩ := Option.map_eq_some_iff.mp hfollow
      have hlive : s.heap.Live addr := Option.isSome_of_eq_some hnode
      rw [List.nodup_cons] at hnodup
      have hrest' : LinkedHeap.Walk (s.heap.flip addr).prevAt node.prev addrs := by
        refine hrest.congr fun other hother => ?_
        rw [LinkedHeap.prevAt, LinkedHeap.flip, LinkedHeap.nodes_modify_of_ne, LinkedHeap.prevAt]
        rintro rfl
        exact hnodup.1 hother
      rw [List.length_cons] at hfuel
      obtain ⟨z, hloop⟩ := ih (s := s.withHeap (s.heap.flip addr)) hrest' hnodup.2 (fuel - 1)
        (by omega)
      obtain ⟨fuel, rfl⟩ : ∃ rest, fuel = rest + 1 := ⟨fuel - 1, by omega⟩
      have hset : Returns (setPrev (some addr) node.next)
          (s.withHeap (s.heap.setNext addr node.prev)) () (s.withHeap (s.heap.flip addr)) := by
        rw [← LinkedHeap.setNext_setPrev_eq_flip hnode]
        exact returns_setPrev hlive.setNext
      refine ⟨z, Returns.loop_next ?_ hloop⟩
      rw [if_neg (by simp)]
      refine (returns_deref hnode).bind ?_
      refine (returns_setNext hlive).bind ?_
      exact hset.bind (returns_pure _ _)

omit [DecidableEq ι] in
/-- A list whose nodes have their pointers exchanged, read from its tail. -/
theorem Holds.reverse (hholds : Holds heap this new) :
    Holds (heap.flipAll (new.map Prod.fst).reverse) ⟨this.mTail, this.mHead, this.mSize⟩
      new.reverse := by
  have hnodes : ∀ addr ∈ new.map Prod.fst, (heap.flipAll (new.map Prod.fst).reverse).nodes addr =
      (heap.nodes addr).map LinkedNode.flip := fun addr haddr =>
    LinkedHeap.nodes_flipAll_of_mem (List.nodup_reverse.mpr hholds.nodup) (List.mem_reverse.mpr haddr)
  refine ⟨?_, ?_, ?_, ?_, ?_, ?_, ?_⟩
  · rw [List.map_reverse]
    exact hholds.chain.reverse hnodes
  · rw [List.map_reverse, List.nodup_reverse]
    exact hholds.nodup
  · intro item hitem
    rw [List.mem_reverse] at hitem
    rw [LinkedHeap.valueAt, hnodes item.1 (List.mem_map_of_mem hitem), Option.map_map]
    exact hholds.values item hitem
  · rw [List.map_reverse, List.head?_reverse]
    exact hholds.tail
  · rw [List.map_reverse, List.getLast?_reverse]
    exact hholds.head
  · rw [List.length_reverse]
    exact hholds.size
  · rw [List.length_reverse]
    exact hholds.small

theorem reserve_short (hinv : Inv s items) (hshort : (items v).length ≤ 1) :
    Returns (reserve v) s () s := by
  have hsize := (hinv.holds v).size
  refine (returns_self rfl).bind ?_
  rw [if_pos (by omega)]
  exact returns_pure () s

/-- `reserve` exchanges the pointers of every node, and the ends of the list. -/
theorem returns_reserve (hinv : Inv s items) (hlong : 1 < (items v).length) :
    Returns (reserve v) s () ((s.withHeap (s.heap.flipAll ((items v).map Prod.fst).reverse)).withList v
      ⟨(s.lists v).mTail, (s.lists v).mHead, (s.lists v).mSize⟩) := by
  have hholds := hinv.holds v
  have hsize := hholds.size
  have hsmall := hholds.small
  have hwalk := hholds.chain.walk_prev
  rw [← hholds.tail] at hwalk
  obtain ⟨z, hloop⟩ := returns_flipAll (s := s) maxSteps hwalk
    (List.nodup_reverse.mpr hholds.nodup) (by
      rw [List.length_reverse, List.length_map, maxSteps]
      omega)
  refine (returns_self rfl).bind ?_
  rw [if_neg (by omega)]
  exact hloop.bind (returns_update rfl _)

theorem Inv.reversed (hinv : Inv s items) (v : ι) :
    Inv ((s.withHeap (s.heap.flipAll ((items v).map Prod.fst).reverse)).withList v
      ⟨(s.lists v).mTail, (s.lists v).mHead, (s.lists v).mSize⟩)
      (Function.update items v (items v).reverse) := by
  refine hinv.shrunk (hinv.holds v).reverse (List.reverse_subset.mpr (List.Subset.refl _)) ?_
  exact fun addr haddr => LinkedHeap.nodes_flipAll_of_notMem (by rwa [List.mem_reverse])

omit [DecidableEq ι] in
theorem reverse_of_short (hshort : new.length ≤ 1) : new.reverse = new := by
  match new with
  | [] => rfl
  | [item] => rfl
  | first :: second :: back => simp at hshort

theorem reserve_spec (hinv : Inv s items) (v : ι) :
    ∃ s', Returns (reserve v) s () s' ∧ Inv s' (Function.update items v (items v).reverse) := by
  rcases Nat.lt_or_ge 1 (items v).length with hlong | hshort
  · exact ⟨_, returns_reserve hinv hlong, hinv.reversed v⟩
  · refine ⟨s, reserve_short hinv hshort, ?_⟩
    rwa [reverse_of_short hshort, Function.update_eq_self]

end LinkedList

end CppProjects
