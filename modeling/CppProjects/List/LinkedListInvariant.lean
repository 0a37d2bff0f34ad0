import CppProjects.List.LinkedListSteps

/-!
# The invariant of `List`

The nodes of every list are linked in a chain from `m_head` to `m_tail`, and no
two lists share a node.  Each operation is shown to keep this, with the nodes it
adds and deletes, where the source does.
-/

namespace CppProjects

open CInt Program

namespace LinkedList

variable {ι α : Type}

/-- The nodes of a list, in order, with their values. -/
structure Holds (heap : LinkedHeap α) (this : LinkedList) (items : List (ℕ × α)) : Prop where
  chain : heap.Segment none (items.map Prod.fst) none
  nodup : (items.map Prod.fst).Nodup
  values : ∀ item ∈ items, heap.valueAt item.1 = some item.2
  head : this.mHead = (items.map Prod.fst).head?
  tail : this.mTail = (items.map Prod.fst).getLast?
  size : this.mSize = items.length
  small : items.length < 2 ^ 31

structure Inv (s : Store ι α) (items : ι → List (ℕ × α)) : Prop where
  holds : ∀ v, Holds s.heap (s.lists v) (items v)
  disjoint : ∀ v w, v ≠ w → ((items v).map Prod.fst).Disjoint ((items w).map Prod.fst)

/-- An argument that has the value `x` as long as the lists keep their nodes. -/
inductive Arg.Denotes (items : ι → List (ℕ × α)) (x : α) : Arg α → Prop
  | temp : Denotes items x (.temp x)
  | node {w : ι} {addr : ℕ} (hmem : (addr, x) ∈ items w) : Denotes items x (.node addr)

variable {s s' : Store ι α} {v w : ι} {items : ι → List (ℕ × α)} {new : List (ℕ × α)} {x : α}
  {arg : Arg α} {this this' : LinkedList} {heap heap' : LinkedHeap α} {addr : ℕ}

theorem Holds.live (hholds : Holds heap this new) (haddr : addr ∈ new.map Prod.fst) :
    heap.Live addr :=
  hholds.chain.live haddr

theorem Inv.walk_next (hinv : Inv s items) (v : ι) :
    LinkedHeap.Walk s.heap.nextAt (s.lists v).mHead ((items v).map Prod.fst) := by
  rw [(hinv.holds v).head]
  exact (hinv.holds v).chain.walk_next

theorem Inv.walk_prev (hinv : Inv s items) (v : ι) :
    LinkedHeap.Walk s.heap.prevAt (s.lists v).mTail ((items v).map Prod.fst).reverse := by
  rw [(hinv.holds v).tail]
  exact (hinv.holds v).chain.walk_prev

/-- A list whose nodes are as they were. -/
theorem Holds.keeps (hholds : Holds heap this new)
    (hkeeps : ∀ addr ∈ new.map Prod.fst, heap'.nodes addr = heap.nodes addr) :
    Holds heap' this new where
  chain := by
    refine hholds.chain.transport (by simp) ?_ ?_ (by simp)
    · exact fun addr haddr => by rw [LinkedHeap.nextAt, hkeeps addr haddr, LinkedHeap.nextAt]
    · exact fun addr haddr => by rw [LinkedHeap.prevAt, hkeeps addr haddr, LinkedHeap.prevAt]
  nodup := hholds.nodup
  values := by
    intro item hitem
    rw [LinkedHeap.valueAt, hkeeps item.1 (List.mem_map_of_mem hitem), ← LinkedHeap.valueAt]
    exact hholds.values item hitem
  head := hholds.head
  tail := hholds.tail
  size := hholds.size
  small := hholds.small

/-- Arguments are read from the heap alone. -/
theorem Inv.returns_fetch (hinv : Inv s items) (harg : Arg.Denotes items x arg) {t : Store ι α}
    (hheap : t.heap = s.heap) : Returns arg.fetch t x t := by
  cases harg with
  | temp => exact returns_pure x t
  | node hmem =>
      have hvalue := (hinv.holds _).values _ hmem
      rw [← hheap] at hvalue
      exact (returns_get t).bind (returns_defined hvalue t)

theorem Inv.returns_newNode (hinv : Inv s items) (harg : Arg.Denotes items x arg) {t : Store ι α}
    (hheap : t.heap = s.heap) :
    Returns (newNode arg) t (some t.heap.top) (t.withHeap (t.heap.alloc x)) :=
  (hinv.returns_fetch harg hheap).bind ((returns_get t).bind rfl)

variable [DecidableEq ι]

/-- One list with other nodes, which no other list has. -/
theorem Inv.replace (hinv : Inv s items) (hholds : Holds heap this new)
    (hnew : ∀ w, w ≠ v → ((items w).map Prod.fst).Disjoint (new.map Prod.fst))
    (hkeeps : ∀ w, w ≠ v → ∀ addr ∈ (items w).map Prod.fst,
      heap.nodes addr = s.heap.nodes addr) :
    Inv ((s.withHeap heap).withList v this) (Function.update items v new) where
  holds := by
    intro w
    by_cases hw : w = v
    · subst hw
      simpa using hholds
    · rw [Function.update_of_ne hw]
      have hlist : ((s.withHeap heap).withList v this).lists w = s.lists w :=
        Function.update_of_ne hw ..
      rw [hlist]
      exact (hinv.holds w).keeps (hkeeps w hw)
  disjoint := by
    intro w w' hne
    by_cases hw : w = v
    · subst hw
      rw [Function.update_self, Function.update_of_ne hne.symm]
      exact (hnew w' hne.symm).symm
    · by_cases hw' : w' = v
      · subst hw'
        rw [Function.update_self, Function.update_of_ne hw]
        exact hnew w hw
      · rw [Function.update_of_ne hw, Function.update_of_ne hw']
        exact hinv.disjoint w w' hne

/-! ## Joining -/

omit [DecidableEq ι]

theorem holds_alloc (heap : LinkedHeap α) (x : α) :
    Holds (heap.alloc x) ⟨some heap.top, some heap.top, 1⟩ [(heap.top, x)] where
  chain := heap.segment_alloc x
  nodup := by simp
  values := by simp [LinkedHeap.valueAt]
  head := rfl
  tail := rfl
  size := rfl
  small := by simp

theorem ne_top_of_live (hlive : heap.Live addr) : addr ≠ heap.top := by
  obtain ⟨node, hnode⟩ := Option.isSome_iff_exists.mp hlive
  exact LinkedHeap.ne_top hnode

theorem Holds.alloc (hholds : Holds heap this new) (x : α) : Holds (heap.alloc x) this new :=
  hholds.keeps fun _ haddr => LinkedHeap.nodes_alloc_of_ne (ne_top_of_live (hholds.live haddr))

/-- Two lists are one after their inner ends are linked. -/
theorem Holds.append {that : LinkedList} {first second : List (ℕ × α)} {other : ℕ}
    (hfirst : Holds heap this first) (hsecond : Holds heap that second)
    (hdisjoint : (first.map Prod.fst).Disjoint (second.map Prod.fst))
    (htail : this.mTail = some addr) (hhead : that.mHead = some other)
    (hsmall : first.length + second.length < 2 ^ 31) :
    Holds (heap.link addr other) ⟨this.mHead, that.mTail, this.mSize + that.mSize⟩
      (first ++ second) := by
  obtain ⟨left, hleft⟩ := List.getLast?_eq_some_iff.mp (hfirst.tail.symm.trans htail)
  obtain ⟨right, hright⟩ := List.head?_eq_some_iff.mp (hsecond.head.symm.trans hhead)
  have hnodup : ((first ++ second).map Prod.fst).Nodup := by
    rw [List.map_append]
    exact hfirst.nodup.append hsecond.nodup hdisjoint
  have hchain := hfirst.chain
  rw [hleft, LinkedHeap.segment_append_cons] at hchain
  have hchain' := hsecond.chain
  rw [hright, LinkedHeap.segment_cons] at hchain'
  have hmap : (first ++ second).map Prod.fst = left ++ addr :: other :: right := by
    rw [List.map_append, hleft, hright, List.append_assoc, List.singleton_append]
  refine ⟨?_, hnodup, ?_, ?_, ?_, ?_, by simpa using hsmall⟩
  · rw [hmap] at hnodup ⊢
    exact hchain.1.link hchain'.2 (hfirst.live (by simp [hleft])) (hsecond.live (by simp [hright]))
      hnodup (by simp) (by simp)
  · intro item hitem
    rw [LinkedHeap.valueAt_link]
    rcases List.mem_append.mp hitem with hmem | hmem
    · exact hfirst.values item hmem
    · exact hsecond.values item hmem
  · rw [hfirst.head, List.map_append, hleft]
    exact (List.head?_append_of_ne_nil (left ++ [addr]) (by simp)).symm
  · rw [hsecond.tail, List.map_append, hright, List.getLast?_append_of_ne_nil _ (by simp)]
  · rw [hfirst.size, hsecond.size, List.length_append, Nat.cast_add]

/-! ## Pushing -/

theorem Holds.exists_tail (hholds : Holds heap this new) (hne : new ≠ []) :
    ∃ addr ∈ new.map Prod.fst, this.mTail = some addr := by
  have hmap : new.map Prod.fst ≠ [] := by simpa using hne
  exact ⟨_, List.getLast_mem hmap, hholds.tail.trans (List.getLast?_eq_some_getLast hmap)⟩

theorem Holds.exists_head (hholds : Holds heap this new) (hne : new ≠ []) :
    ∃ addr ∈ new.map Prod.fst, this.mHead = some addr := by
  have hmap : new.map Prod.fst ≠ [] := by simpa using hne
  exact ⟨_, List.head_mem hmap, hholds.head.trans (List.head?_eq_some_head hmap)⟩

theorem Holds.mSize_eq_zero (hholds : Holds heap this new) : this.mSize = 0 ↔ new = [] := by
  rw [hholds.size, Nat.cast_eq_zero, List.length_eq_zero_iff]

theorem Holds.eq_of_nil (hholds : Holds heap this []) : this = ⟨none, none, 0⟩ := by
  obtain ⟨head, tail, size⟩ := this
  obtain rfl : head = none := hholds.head
  obtain rfl : tail = none := hholds.tail
  obtain rfl : size = 0 := hholds.size
  rfl

variable [DecidableEq ι]

/-- The stores in which a list has got a new node. -/
theorem Inv.pushed (hinv : Inv s items) (hholds : Holds heap this' new)
    (hnew : ∀ addr ∈ new.map Prod.fst, addr ∈ (items v).map Prod.fst ∨ addr = s.heap.top)
    (hkeeps : ∀ addr, addr ≠ s.heap.top → addr ∉ (items v).map Prod.fst →
      heap.nodes addr = s.heap.nodes addr) :
    Inv ((s.withHeap heap).withList v this') (Function.update items v new) := by
  refine hinv.replace hholds ?_ ?_
  · intro w hw addr haddr hmem
    rcases hnew addr hmem with hown | rfl
    · exact hinv.disjoint w v hw haddr hown
    · exact ne_top_of_live ((hinv.holds w).live haddr) rfl
  · intro w hw addr haddr
    exact hkeeps addr (ne_top_of_live ((hinv.holds w).live haddr)) (hinv.disjoint w v hw haddr)

/-- The node that an empty list gets, whichever end it is pushed to. -/
theorem Inv.pushed_nil (hinv : Inv s items) (v : ι) (x : α) :
    Inv ((s.withHeap (s.heap.alloc x)).withList v ⟨some s.heap.top, some s.heap.top, 1⟩)
      (Function.update items v [(s.heap.top, x)]) := by
  refine hinv.pushed (holds_alloc s.heap x) ?_ ?_
  · intro addr haddr
    right
    simpa using haddr
  · exact fun addr hne _ => LinkedHeap.nodes_alloc_of_ne hne

omit [DecidableEq ι] in
theorem Inv.fresh (hinv : Inv s items) (v : ι) : s.heap.top ∉ (items v).map Prod.fst :=
  fun hmem => ne_top_of_live ((hinv.holds v).live hmem) rfl

theorem Inv.pushed_link (hinv : Inv s items) (hperm : new.Perm ((s.heap.top, x) :: items v))
    {first second : ℕ} (hfirst : first ∈ s.heap.top :: (items v).map Prod.fst)
    (hsecond : second ∈ s.heap.top :: (items v).map Prod.fst)
    (hholds : Holds ((s.heap.alloc x).link first second) this' new) :
    Inv ((s.withHeap ((s.heap.alloc x).link first second)).withList v this')
      (Function.update items v new) := by
  refine hinv.pushed hholds ?_ ?_
  · intro addr haddr
    have hmem := (hperm.map Prod.fst).mem_iff.mp haddr
    rw [List.map_cons, List.mem_cons] at hmem
    exact hmem.symm
  · intro addr hne hnot
    have hother : addr ∉ s.heap.top :: (items v).map Prod.fst := by
      rw [List.mem_cons, not_or]
      exact ⟨hne, hnot⟩
    rw [LinkedHeap.nodes_link_of_ne (fun heq => hother (by rwa [heq]))
      (fun heq => hother (by rwa [heq])), LinkedHeap.nodes_alloc_of_ne hne]

theorem Holds.fits (hholds : Holds heap this new) (hsmall : new.length + 1 < 2 ^ 31) :
    FitsInt (this.mSize + 1) := by
  rw [hholds.size]
  exact ⟨by omega, by omega⟩

theorem pushFront_spec (hinv : Inv s items) (harg : Arg.Denotes items x arg)
    (hsmall : (items v).length + 1 < 2 ^ 31) :
    ∃ s', Returns (pushFront v arg) s () s' ∧
      Inv s' (Function.update items v ((s.heap.top, x) :: items v)) := by
  have hholds := hinv.holds v
  by_cases hempty : items v = []
  · have hthis : (s.withHeap (s.heap.alloc x)).lists v = ⟨none, none, 0⟩ := by
      rw [hempty] at hholds
      exact hholds.eq_of_nil
    rw [hempty]
    refine ⟨_, (hinv.returns_newNode harg rfl).bind ((returns_self hthis).bind ?_),
      hinv.pushed_nil v x⟩
    rw [if_pos rfl]
    exact returns_update_addSize hthis _ (show FitsInt (0 + 1) by decide)
  · obtain ⟨first, hfirst, hhead⟩ := hholds.exists_head hempty
    have hthis : (s.withHeap (s.heap.alloc x)).lists v = s.lists v := rfl
    have hnonzero : (s.lists v).mSize ≠ 0 := fun hzero => hempty (hholds.mSize_eq_zero.mp hzero)
    have hlive : (s.heap.alloc x).Live first := (hholds.alloc x).live hfirst
    have hlive' : (s.heap.alloc x).Live s.heap.top := (holds_alloc s.heap x).live (by simp)
    have happend := (holds_alloc s.heap x).append (hholds.alloc x)
      (by simpa using hinv.fresh v) rfl hhead (by simpa [add_comm] using hsmall)
    rw [add_comm] at happend
    refine ⟨_, (hinv.returns_newNode harg rfl).bind ((returns_self hthis).bind ?_),
      hinv.pushed_link (List.Perm.refl _) (by simp) (by simp [hfirst]) happend⟩
    rw [if_neg hnonzero, hhead, LinkedHeap.link, ← LinkedHeap.setPrev_setNext]
    have hset := returns_setPrev (s := s.withHeap (s.heap.alloc x)) (q := some s.heap.top) hlive
    have hset' := returns_setNext (s := s.withHeap ((s.heap.alloc x).setPrev first (some s.heap.top)))
      (q := some first) hlive'.setPrev
    exact hset.bind (hset'.bind (returns_update_addSize rfl _ (hholds.fits hsmall)))

theorem pushBack_spec (hinv : Inv s items) (harg : Arg.Denotes items x arg)
    (hsmall : (items v).length + 1 < 2 ^ 31) :
    ∃ s', Returns (pushBack v arg) s () s' ∧
      Inv s' (Function.update items v (items v ++ [(s.heap.top, x)])) := by
  have hholds := hinv.holds v
  by_cases hempty : items v = []
  · have hthis : (s.withHeap (s.heap.alloc x)).lists v = ⟨none, none, 0⟩ := by
      rw [hempty] at hholds
      exact hholds.eq_of_nil
    rw [hempty, List.nil_append]
    refine ⟨_, (hinv.returns_newNode harg rfl).bind ((returns_self hthis).bind ?_),
      hinv.pushed_nil v x⟩
    rw [if_pos rfl]
    exact returns_update_addSize hthis _ (show FitsInt (0 + 1) by decide)
  · obtain ⟨last, hlast, htail⟩ := hholds.exists_tail hempty
    have hthis : (s.withHeap (s.heap.alloc x)).lists v = s.lists v := rfl
    have hnonzero : (s.lists v).mSize ≠ 0 := fun hzero => hempty (hholds.mSize_eq_zero.mp hzero)
    have hlive : (s.heap.alloc x).Live last := (hholds.alloc x).live hlast
    have hlive' : (s.heap.alloc x).Live s.heap.top := (holds_alloc s.heap x).live (by simp)
    have happend := (hholds.alloc x).append (holds_alloc s.heap x)
      (by simpa using hinv.fresh v) htail rfl (by simpa using hsmall)
    refine ⟨_, (hinv.returns_newNode harg rfl).bind ((returns_self hthis).bind ?_),
      hinv.pushed_link (List.perm_append_singleton _ _) (by simp [hlast]) (by simp) happend⟩
    rw [if_neg hnonzero, htail]
    have hset := returns_setNext (s := s.withHeap (s.heap.alloc x)) (q := some s.heap.top) hlive
    have hset' := returns_setPrev (s := s.withHeap ((s.heap.alloc x).setNext last (some s.heap.top)))
      (q := some last) hlive'.setNext
    exact hset.bind (hset'.bind (returns_update_addSize rfl _ (hholds.fits hsmall)))

/-! ## Popping -/

omit [DecidableEq ι] in
theorem holds_nil (heap : LinkedHeap α) : Holds heap ⟨none, none, 0⟩ [] where
  chain := LinkedHeap.segment_nil.mpr ⟨by simp, by simp⟩
  nodup := .nil
  values := by simp
  head := rfl
  tail := rfl
  size := rfl
  small := by simp

/-- Some nodes of a list are deleted, and others changed. -/
theorem Inv.shrunk (hinv : Inv s items) (hholds : Holds heap this new)
    (hsub : new ⊆ items v)
    (hkeeps : ∀ addr, addr ∉ (items v).map Prod.fst → heap.nodes addr = s.heap.nodes addr) :
    Inv ((s.withHeap heap).withList v this) (Function.update items v new) :=
  hinv.replace hholds
    (fun w hw _ haddr hmem =>
      hinv.disjoint w v hw haddr (List.map_subset _ hsub hmem))
    (fun w hw addr haddr => hkeeps addr (hinv.disjoint w v hw haddr))

omit [DecidableEq ι] in
/-- The address of a node occurs once in its list. -/
theorem Holds.notMem_map {front back : List (ℕ × α)} {item : ℕ × α}
    (hholds : Holds heap this (front ++ item :: back)) : item.1 ∉ (front ++ back).map Prod.fst := by
  have hnodup := hholds.nodup
  rw [List.map_append, List.map_cons, List.nodup_middle, List.nodup_cons] at hnodup
  rw [List.map_append]
  exact hnodup.1

omit [DecidableEq ι] in
/-- The node of an item, with its neighbours. -/
theorem Holds.nodes_eq (front : List (ℕ × α)) {back : List (ℕ × α)} {item : ℕ × α}
    (hholds : Holds heap this (front ++ item :: back)) :
    heap.nodes item.1 = some ⟨item.2, (front.map Prod.fst).getLast?, (back.map Prod.fst).head?⟩ := by
  have hchain := hholds.chain
  rw [List.map_append, List.map_cons] at hchain
  have hnode := hchain.nodes_eq (hholds.values item (by simp))
  rwa [Option.or_none, Option.or_none] at hnode

omit [DecidableEq ι] in
theorem Holds.free_values (front : List (ℕ × α)) {back : List (ℕ × α)} {item : ℕ × α}
    (hholds : Holds heap this (front ++ item :: back))
    (hvalue : ∀ addr, heap'.valueAt addr = heap.valueAt addr) :
    ∀ kept ∈ front ++ back, (heap'.free item.1).valueAt kept.1 = some kept.2 := by
  intro kept hkept
  have hne : kept.1 ≠ item.1 := by
    intro heq
    exact hholds.notMem_map (heq ▸ List.mem_map_of_mem hkept)
  rw [LinkedHeap.valueAt, LinkedHeap.map_nodes_free hne, ← LinkedHeap.valueAt, hvalue]
  refine hholds.values kept ?_
  rw [List.mem_append] at hkept
  rw [List.mem_append, List.mem_cons]
  tauto

omit [DecidableEq ι] in
/-- A list without its last node. -/
theorem Holds.dropLast {front : List (ℕ × α)} {before last : ℕ × α}
    (hholds : Holds heap this (front ++ [before, last])) :
    Holds ((heap.setNext before.1 none).free last.1)
      ⟨this.mHead, some before.1, this.mSize + -1⟩ (front ++ [before]) where
  chain := by
    have hchain := hholds.chain
    have hnodup := hholds.nodup
    simp only [List.map_append, List.map_cons, List.map_nil] at hchain hnodup ⊢
    exact hchain.cutLast hnodup (by simp)
  nodup := hholds.nodup.sublist (by simp)
  values := by
    rw [List.append_cons] at hholds
    have hsame : ∀ addr, (heap.setNext before.1 none).valueAt addr = heap.valueAt addr :=
      fun _ => LinkedHeap.valueAt_setNext
    have hvalues := Holds.free_values _ hholds hsame
    rwa [List.append_nil] at hvalues
  head := by simp [hholds.head]
  tail := by simp
  size := by
    rw [hholds.size]
    simp only [List.length_append, List.length_cons, List.length_nil]
    omega
  small := by
    have hsmall := hholds.small
    simp only [List.length_append, List.length_cons, List.length_nil] at hsmall ⊢
    omega

omit [DecidableEq ι] in
theorem Holds.eq_of_singleton {item : ℕ × α} (hholds : Holds heap this [item]) :
    this = ⟨some item.1, some item.1, 1⟩ := by
  obtain ⟨head, tail, size⟩ := this
  obtain rfl : head = some item.1 := hholds.head
  obtain rfl : tail = some item.1 := hholds.tail
  obtain rfl : size = 1 := hholds.size
  rfl

theorem Inv.popped_singleton {item : ℕ × α} (hinv : Inv s items) (hitems : items v = [item]) :
    Inv ((s.withHeap (s.heap.free item.1)).withList v ⟨none, none, 0⟩)
      (Function.update items v []) := by
  refine hinv.shrunk (holds_nil _) (by simp) fun addr haddr => ?_
  rw [hitems] at haddr
  exact LinkedHeap.nodes_free_of_ne (by simpa using haddr)

/-- The only node of a list is deleted. -/
theorem returns_pop_singleton {item : ℕ × α} (hinv : Inv s items) (hitems : items v = [item]) :
    Returns (do
      delete (some item.1)
      update v fun this => { this with mHead := none, mTail := none }
      addSize v (-1)) s () ((s.withHeap (s.heap.free item.1)).withList v ⟨none, none, 0⟩) := by
  have hholds := hinv.holds v
  rw [hitems] at hholds
  have hthis : (s.withHeap (s.heap.free item.1)).lists v = ⟨some item.1, some item.1, 1⟩ :=
    hholds.eq_of_singleton
  exact (returns_delete (hholds.live (by simp))).bind
    (returns_update_addSize hthis _ (show FitsInt (1 + -1) by decide))

/-- What `pop_back` does when a node remains. -/
theorem returns_popBack {front : List (ℕ × α)} {before last : ℕ × α} (hinv : Inv s items)
    (hitems : items v = front ++ [before, last]) :
    Returns (popBack v) s () ((s.withHeap ((s.heap.setNext before.1 none).free last.1)).withList v
      ⟨(s.lists v).mHead, some before.1, (s.lists v).mSize + -1⟩) := by
  have hholds := hinv.holds v
  rw [hitems] at hholds
  have hsize := hholds.size
  have hsmall := hholds.small
  rw [List.length_append, List.length_cons, List.length_singleton] at hsize hsmall
  have htail : (s.lists v).mTail = some last.1 := by
    rw [hholds.tail]
    simp
  have hbefore : s.heap.Live before.1 := hholds.live (by simp)
  have hlast : s.heap.Live last.1 := hholds.live (by simp)
  rw [List.append_cons] at hholds
  have hnode := Holds.nodes_eq _ hholds
  rw [List.map_append, List.map_singleton, List.getLast?_concat] at hnode
  have hfits : FitsInt ((s.lists v).mSize + -1) := ⟨by omega, by omega⟩
  have hdelete : Returns (delete (some last.1)) (s.withHeap (s.heap.setNext before.1 none)) () _ :=
    returns_delete hlast.setNext
  refine (returns_self rfl).bind ?_
  rw [if_neg (by omega), if_neg (by omega), htail]
  refine (returns_deref hnode).bind ((returns_setNext hbefore).bind (hdelete.bind ?_))
  exact returns_update_addSize rfl _ hfits

/-- `pop_back` deletes the last node and no other. -/
theorem popBack_spec (hinv : Inv s items) (v : ι) :
    ∃ s', Returns (popBack v) s () s' ∧ Inv s' (Function.update items v (items v).dropLast) ∧
      ∀ addr, s'.heap.Live addr → s.heap.Live addr ∧
        (addr ∈ (items v).map Prod.fst → addr ∈ (items v).dropLast.map Prod.fst) := by
  have hholds := hinv.holds v
  rcases (items v).eq_nil_or_concat with hitems | ⟨front, last, hitems⟩
  · rw [hitems] at hholds
    refine ⟨s, (returns_self hholds.eq_of_nil).bind ?_, ?_, ?_⟩
    · rw [if_pos rfl]
      exact returns_pure () s
    · rwa [hitems, List.dropLast_nil, ← hitems, Function.update_eq_self]
    · intro addr hlive
      simp [hlive, hitems]
  · rcases front.eq_nil_or_concat with rfl | ⟨front, before, rfl⟩
    · rw [hitems] at hholds
      refine ⟨(s.withHeap (s.heap.free last.1)).withList v ⟨none, none, 0⟩,
        (returns_self hholds.eq_of_singleton).bind ?_, ?_, ?_⟩
      · rw [if_neg (show ¬ (1 : ℤ) = 0 by decide), if_pos rfl]
        exact returns_pop_singleton hinv hitems
      · rw [hitems]
        exact hinv.popped_singleton hitems
      · intro addr hlive
        obtain ⟨hbefore, hne⟩ := LinkedHeap.live_free.mp hlive
        refine ⟨hbefore, fun hmem => absurd ?_ hne⟩
        rw [hitems] at hmem
        simpa using hmem
    · rw [List.concat_eq_append, List.concat_eq_append, List.append_assoc] at hitems
      rw [hitems] at hholds
      refine ⟨_, returns_popBack hinv hitems, ?_, ?_⟩
      · rw [hitems, List.singleton_append, List.dropLast_append_cons, List.dropLast_cons_cons,
          List.dropLast_singleton]
        refine hinv.shrunk hholds.dropLast (by simp [hitems]) fun addr haddr => ?_
        rw [hitems] at haddr
        simp only [List.map_append, List.map_cons, List.map_nil, List.mem_append, List.mem_cons,
          List.not_mem_nil, or_false, not_or] at haddr
        rw [LinkedHeap.nodes_free_of_ne haddr.2.2, LinkedHeap.setNext,
          LinkedHeap.nodes_modify_of_ne haddr.2.1]
      · intro addr hlive
        obtain ⟨hbefore, hne⟩ := LinkedHeap.live_free.mp hlive
        refine ⟨LinkedHeap.live_setNext.mp hbefore, fun hmem => ?_⟩
        rw [hitems] at hmem ⊢
        rw [List.singleton_append, List.dropLast_append_cons, List.dropLast_cons_cons,
          List.dropLast_singleton]
        simp only [List.singleton_append, List.map_append, List.map_cons, List.map_nil,
          List.mem_append, List.mem_cons, List.not_mem_nil, or_false] at hmem ⊢
        tauto

end LinkedList

end CppProjects
