import CppProjects.List.LinkedListOperations

/-!
# `List::remove`

The second loop of `remove` looks at the node behind its pointer, deletes it if
it has the value, and steps on without looking at the node that took its place.
-/

namespace CppProjects

open CInt Program

namespace LinkedList

variable {ι α : Type} [DecidableEq ι] [DecidableEq α] {s s' : Store ι α} {v w : ι}
  {items items' : ι → List (ℕ × α)} {front back rest : List (ℕ × α)} {x : α} {arg : Arg α}
  {this : LinkedList} {heap : LinkedHeap α} {addr : ℕ} {item node : ℕ × α}

/-- What the second loop keeps of the nodes behind its pointer. -/
def sweep (x : α) : List (ℕ × α) → List (ℕ × α)
  | [] => []
  | [first] => [first]
  | first :: second :: rest =>
      if first.2 = x then second :: sweep x rest else first :: sweep x (second :: rest)

/-- The second loop neither deletes the last node nor reads an argument that it
has deleted. -/
def Sweeps (x : α) (arg : Arg α) : List (ℕ × α) → Prop
  | [] => True
  | [first] => first.2 ≠ x
  | first :: second :: rest =>
      if first.2 = x then (rest = [] ∨ arg ≠ .node first.1) ∧ Sweeps x arg rest
      else Sweeps x arg (second :: rest)

/-- One turn of the second loop. -/
def sweepTurn (v : ι) (value : Arg α) (pointer : Option ℕ) : M ι α (Option (Option ℕ)) :=
  if pointer = none then return none
  else do
    let node ← deref pointer
    if node.next = none then return none
    else
      let temp ← deref node.next
      if temp.value = (← value.fetch) then
        setNext pointer temp.next
        let temp ← deref node.next
        setPrev temp.next pointer
        delete node.next
        addSize v (-1)
      let node ← deref pointer
      return some node.next

omit [DecidableEq ι] [DecidableEq α] in
theorem Inv.nodes_eq (hinv : Inv s items) (front : List (ℕ × α))
    (hitems : items v = front ++ node :: back) :
    s.heap.nodes node.1 =
      some ⟨node.2, (front.map Prod.fst).getLast?, (back.map Prod.fst).head?⟩ := by
  have hholds := hinv.holds v
  rw [hitems] at hholds
  exact Holds.nodes_eq _ hholds

/-- The loop ends at the last node. -/
theorem sweepTurn_last (hinv : Inv s items) (hitems : items v = front ++ [node]) :
    Returns (sweepTurn v arg (some node.1)) s none s := by
  have hnode := hinv.nodes_eq _ hitems
  rw [sweepTurn, if_neg (by simp)]
  refine (returns_deref hnode).bind ?_
  rw [if_pos (by simp)]
  exact returns_pure _ s

/-- The node behind the pointer has another value. -/
theorem sweepTurn_keep (hinv : Inv s items) (hitems : items v = front ++ node :: item :: back)
    (harg : Arg.Denotes items x arg) (hne : item.2 ≠ x) :
    Returns (sweepTurn v arg (some node.1)) s (some (some item.1)) s := by
  have hnode := hinv.nodes_eq _ hitems
  have hitems' := hitems
  rw [List.append_cons] at hitems'
  have hitem := hinv.nodes_eq _ hitems'
  rw [sweepTurn, if_neg (by simp)]
  refine (returns_deref hnode).bind ?_
  rw [if_neg (by simp)]
  refine (returns_deref hitem).bind ?_
  refine (hinv.returns_fetch harg rfl).bind ?_
  rw [if_neg hne]
  exact (returns_deref hnode).bind (returns_pure _ s)

/-- The node behind the pointer is deleted. -/
theorem sweepTurn_delete {behind : ℕ × α} (hinv : Inv s items)
    (hitems : items v = front ++ node :: item :: behind :: back)
    (harg : Arg.Denotes items item.2 arg) :
    ∃ s', Returns (sweepTurn v arg (some node.1)) s (some (some behind.1)) s' ∧
      Inv s' (Function.update items v (front ++ node :: behind :: back)) ∧
        s'.heap = (s.heap.link node.1 behind.1).free item.1 := by
  have hholds := hinv.holds v
  have hnode := hinv.nodes_eq _ hitems
  have hitems' := hitems
  rw [List.append_cons] at hitems'
  have hitem := hinv.nodes_eq _ hitems'
  have hbehind := hinv.nodes_eq (front ++ [node, item])
    (show items v = front ++ [node, item] ++ behind :: back by simp [hitems])
  rw [hitems] at hholds
  have hsize := hholds.size
  have hsmall := hholds.small
  simp only [List.length_append, List.length_cons] at hsize hsmall
  have hfits : FitsInt ((s.lists v).mSize + -1) := ⟨by omega, by omega⟩
  have hlive : s.heap.Live node.1 := hholds.live (by simp)
  have hlive' : s.heap.Live item.1 := hholds.live (by simp)
  have hlive'' : s.heap.Live behind.1 := hholds.live (by simp)
  have hnotMem := hholds.notMem_map
  rw [List.append_cons] at hholds
  have hnotMem' := hholds.notMem_map
  simp only [List.map_append, List.map_cons, List.map_nil, List.mem_append, List.mem_cons,
    List.not_mem_nil, not_or] at hnotMem hnotMem'
  have hset : Returns (setNext (some node.1) (some behind.1)) s ()
      (s.withHeap (s.heap.setNext node.1 (some behind.1))) := returns_setNext hlive
  have hset' : Returns (setPrev (some behind.1) (some node.1))
      (s.withHeap (s.heap.setNext node.1 (some behind.1))) ()
      (s.withHeap (s.heap.link node.1 behind.1)) := returns_setPrev hlive''.setNext
  have hdelete : Returns (delete (some item.1)) (s.withHeap (s.heap.link node.1 behind.1)) ()
      (s.withHeap ((s.heap.link node.1 behind.1).free item.1)) := returns_delete hlive'.setNext.setPrev
  have hadd : Returns (addSize v (-1)) (s.withHeap ((s.heap.link node.1 behind.1).free item.1)) ()
      ((s.withHeap ((s.heap.link node.1 behind.1).free item.1)).withList v
        ⟨(s.lists v).mHead, (s.lists v).mTail, (s.lists v).mSize + -1⟩) := returns_addSize rfl hfits
  have hreread : (s.heap.setNext node.1 (some behind.1)).nodes item.1 = _ :=
    (LinkedHeap.nodes_modify_of_ne hnotMem'.1.2.1).trans hitem
  have hfinal := (hinv.unlinked hitems).nodes_eq front
    (Function.update_self v (front ++ node :: behind :: back) items)
  rw [sweepTurn, if_neg (by simp)]
  refine ⟨_, ?_, hinv.unlinked hitems, rfl⟩
  refine (returns_deref hnode).bind ?_
  rw [if_neg (by simp)]
  refine (returns_deref hitem).bind ?_
  refine (hinv.returns_fetch harg rfl).bind ?_
  rw [if_pos rfl]
  refine hset.bind ?_
  refine (returns_deref hreread).bind ?_
  refine hset'.bind ?_
  refine hdelete.bind ?_
  refine hadd.bind ?_
  exact (returns_deref hfinal).bind (returns_pure _ _)

/-- There is no node behind the last one to link back. -/
theorem sweepTurn_stuck_last (hinv : Inv s items) (hitems : items v = front ++ [node, item])
    (harg : Arg.Denotes items item.2 arg) : Stuck (sweepTurn v arg (some node.1)) s := by
  have hholds := hinv.holds v
  have hnode := hinv.nodes_eq _ hitems
  have hitems' := hitems
  rw [List.append_cons] at hitems'
  have hitem := hinv.nodes_eq _ hitems'
  rw [hitems] at hholds
  have hlive : s.heap.Live node.1 := hholds.live (by simp)
  rw [List.append_cons] at hholds
  have hnotMem := hholds.notMem_map
  simp only [List.map_append, List.map_cons, List.map_nil, List.mem_append, List.mem_cons,
    List.not_mem_nil, not_or] at hnotMem
  have hreread : (s.heap.setNext node.1 none).nodes item.1 = _ :=
    (LinkedHeap.nodes_modify_of_ne hnotMem.1.2.1).trans hitem
  rw [sweepTurn, if_neg (by simp)]
  refine (returns_deref hnode).bind_stuck ?_
  rw [if_neg (by simp)]
  refine (returns_deref hitem).bind_stuck ?_
  refine (hinv.returns_fetch harg rfl).bind_stuck ?_
  rw [if_pos rfl]
  refine (returns_setNext hlive).bind_stuck ?_
  refine (returns_deref hreread).bind_stuck ?_
  exact (stuck_assignTo_null _).bind

/-- The argument is a node that has been deleted. -/
theorem sweepTurn_stuck_dead (hinv : Inv s items) (hitems : items v = front ++ node :: item :: back)
    (hdead : ¬ s.heap.Live addr) : Stuck (sweepTurn v (.node addr) (some node.1)) s := by
  have hnode := hinv.nodes_eq _ hitems
  have hitems' := hitems
  rw [List.append_cons] at hitems'
  have hitem := hinv.nodes_eq _ hitems'
  have hvalue : s.heap.valueAt addr = none := by
    rw [LinkedHeap.Live, Option.not_isSome_iff_eq_none] at hdead
    rw [LinkedHeap.valueAt, hdead, Option.map_none]
  rw [sweepTurn, if_neg (by simp)]
  refine (returns_deref hnode).bind_stuck ?_
  rw [if_neg (by simp)]
  refine (returns_deref hitem).bind_stuck ?_
  exact ((returns_get s).bind_stuck (stuck_defined hvalue s)).bind

omit [DecidableEq α] in
/-- An argument outlives the deletion of a node it does not refer to. -/
theorem Arg.Denotes.erase {before behind : ℕ × α} (harg : Arg.Denotes items x arg)
    (hitems : items v = front ++ before :: item :: behind :: back) (hne : arg ≠ .node item.1) :
    Arg.Denotes (Function.update items v (front ++ before :: behind :: back)) x arg := by
  cases harg with
  | temp => exact .temp
  | @node w addr hmem =>
      by_cases hw : w = v
      · subst hw
        refine .node (w := w) ?_
        rw [Function.update_self]
        have hother : (addr, x) ≠ item := fun heq => hne (by rw [← heq])
        rw [hitems] at hmem
        simp only [List.mem_append, List.mem_cons] at hmem ⊢
        tauto
      · refine .node (w := w) ?_
        rwa [Function.update_of_ne hw]

/-- The second loop, from a node on that it keeps. -/
theorem sweep_loop (hinv : Inv s items) (front : List (ℕ × α))
    (hitems : items v = front ++ node :: rest)
    (harg : rest ≠ [] → Arg.Denotes items x arg) (hsweeps : Sweeps x arg rest) {fuel : ℕ}
    (hfuel : rest.length < fuel) :
    ∃ z s', Returns (loop (sweepTurn v arg) fuel (some node.1)) s z s' ∧
      Inv s' (Function.update items v (front ++ node :: sweep x rest)) := by
  obtain ⟨fuel, rfl⟩ : ∃ less, fuel = less + 1 := ⟨fuel - 1, by omega⟩
  fun_induction sweep x rest generalizing s items front node fuel with
  | case1 =>
      refine ⟨some node.1, s, (sweepTurn_last hinv hitems).loop_exit, ?_⟩
      rwa [← hitems, Function.update_eq_self]
  | case2 first =>
      rw [Sweeps] at hsweeps
      rw [List.length_singleton] at hfuel
      obtain ⟨fuel, rfl⟩ : ∃ less, fuel = less + 1 := ⟨fuel - 1, by omega⟩
      have hturn := sweepTurn_keep hinv hitems (harg (by simp)) hsweeps
      have hitems' := hitems
      rw [List.append_cons] at hitems'
      refine ⟨some first.1, s, hturn.loop_next (sweepTurn_last hinv hitems').loop_exit, ?_⟩
      rwa [← hitems, Function.update_eq_self]
  | case3 first second rest hvalue ih =>
      rw [Sweeps, if_pos hvalue] at hsweeps
      simp only [List.length_cons] at hfuel
      obtain ⟨fuel, rfl⟩ : ∃ less, fuel = less + 1 := ⟨fuel - 1, by omega⟩
      obtain ⟨s₁, hturn, hs₁, -⟩ := sweepTurn_delete hinv hitems (hvalue ▸ harg (by simp))
      have hnext : rest ≠ [] → Arg.Denotes
          (Function.update items v (front ++ node :: second :: rest)) x arg := fun hrest =>
        (harg (by simp)).erase hitems (hsweeps.1.resolve_left hrest)
      obtain ⟨z, s', hloop, hs'⟩ := ih hs₁ (front ++ [node])
        (by rw [Function.update_self, List.append_cons]) hnext hsweeps.2 fuel (by omega)
      rw [Function.update_idem, List.append_assoc] at hs'
      exact ⟨z, s', hturn.loop_next hloop, hs'⟩
  | case4 first second rest hvalue ih =>
      rw [Sweeps, if_neg hvalue] at hsweeps
      simp only [List.length_cons] at hfuel
      obtain ⟨fuel, rfl⟩ : ∃ less, fuel = less + 1 := ⟨fuel - 1, by omega⟩
      have hturn := sweepTurn_keep hinv hitems (harg (by simp)) hvalue
      have hitems' := hitems
      rw [List.append_cons] at hitems'
      obtain ⟨z, s', hloop, hs'⟩ := ih hinv _ hitems' (fun _ => harg (by simp)) hsweeps fuel
        (by simp only [List.length_cons]; omega)
      rw [List.append_assoc, List.singleton_append] at hs'
      exact ⟨z, s', hturn.loop_next hloop, hs'⟩

/-- The second loop has no outcome where it would delete the last node or reads
an argument it has deleted. -/
theorem sweep_loop_stuck (hinv : Inv s items) (front : List (ℕ × α))
    (hitems : items v = front ++ node :: rest) (harg : Arg.Denotes items x arg) (hsweeps : ¬ Sweeps x arg rest) {fuel : ℕ}
    (hfuel : rest.length < fuel) : Stuck (loop (sweepTurn v arg) fuel (some node.1)) s := by
  obtain ⟨fuel, rfl⟩ : ∃ less, fuel = less + 1 := ⟨fuel - 1, by omega⟩
  fun_induction sweep x rest generalizing s items front node fuel with
  | case1 => exact absurd trivial hsweeps
  | case2 first =>
      rw [Sweeps, not_not] at hsweeps
      subst hsweeps
      exact (sweepTurn_stuck_last hinv hitems harg).loop
  | case3 first second rest hvalue ih =>
      rw [Sweeps, if_pos hvalue, not_and_or, not_or, not_not] at hsweeps
      simp only [List.length_cons] at hfuel
      obtain ⟨fuel, rfl⟩ : ∃ less, fuel = less + 1 := ⟨fuel - 1, by omega⟩
      obtain ⟨s₁, hturn, hs₁, hheap⟩ := sweepTurn_delete hinv hitems (hvalue ▸ harg)
      have hitems₁ : Function.update items v (front ++ node :: second :: rest) v =
          front ++ [node] ++ second :: rest := by rw [Function.update_self, List.append_cons]
      by_cases hdead : arg = .node first.1 ∧ rest ≠ []
      · obtain ⟨rfl, hrest⟩ := hdead
        obtain ⟨third, rest, rfl⟩ := List.exists_cons_of_ne_nil hrest
        have hfreed : ¬ s₁.heap.Live first.1 := by
          rw [hheap]
          simp [LinkedHeap.Live]
        exact hturn.loop_stuck (sweepTurn_stuck_dead hs₁ hitems₁ hfreed).loop
      · by_cases hrest : rest = []
        · subst hrest
          simp [Sweeps] at hsweeps
        · have hne : arg ≠ .node first.1 := fun heq => hdead ⟨heq, hrest⟩
          have hsweeps' : ¬ Sweeps x arg rest := hsweeps.resolve_left fun h => hne h.2
          exact hturn.loop_stuck (ih hs₁ _ hitems₁ (harg.erase hitems hne) hsweeps' fuel (by omega))
  | case4 first second rest hvalue ih =>
      rw [Sweeps, if_neg hvalue] at hsweeps
      simp only [List.length_cons] at hfuel
      obtain ⟨fuel, rfl⟩ : ∃ less, fuel = less + 1 := ⟨fuel - 1, by omega⟩
      have hturn := sweepTurn_keep hinv hitems harg hvalue
      rw [List.append_cons] at hitems
      exact hturn.loop_stuck (ih hinv _ hitems harg hsweeps fuel
        (by simp only [List.length_cons]; omega))

/-- One turn of the first loop. -/
def removeFirst (v : ι) (value : Arg α) : M ι α (Option Unit) := do
  let this ← self v
  if this.mHead = none then return none
  else
    let first ← deref this.mHead
    if first.value = (← value.fetch) then
      let _ ← deref first.next
      delete this.mHead
      update v fun this => { this with mHead := first.next }
      addSize v (-1)
      return some ()
    else return none

/-- `remove` is its two loops. -/
theorem remove_eq (v : ι) (value : Arg α) : (remove v value : M ι α Unit) = (do
    let this ← self v
    if this.mSize = 0 then pure ()
    else
      let _ ← loop (fun () => removeFirst v value) maxSteps ()
      let this ← self v
      let _ ← loop (sweepTurn v value) maxSteps this.mHead) := rfl

theorem removeFirst_ne (hinv : Inv s items) (hitems : items v = node :: rest)
    (harg : Arg.Denotes items x arg) (hne : node.2 ≠ x) :
    Returns (removeFirst v arg) s none s := by
  have hnode := hinv.nodes_eq [] hitems
  have hhead : (s.lists v).mHead = some node.1 := by
    rw [(hinv.holds v).head, hitems]
    rfl
  refine (returns_self rfl).bind ?_
  rw [hhead, if_neg (by simp)]
  refine (returns_deref hnode).bind ?_
  refine (hinv.returns_fetch harg rfl).bind ?_
  rw [if_neg hne]
  exact returns_pure _ s

theorem remove_empty (hinv : Inv s items) (hitems : items v = []) : Returns (remove v arg) s () s := by
  have hthis := hinv.holds v
  rw [hitems] at hthis
  refine (returns_self hthis.eq_of_nil).bind ?_
  rw [if_pos rfl]
  exact returns_pure () s

theorem remove_spec (hinv : Inv s items) (hitems : items v = node :: rest)
    (harg : Arg.Denotes items x arg) (hne : node.2 ≠ x) (hsweeps : Sweeps x arg rest) :
    ∃ s', Returns (remove v arg) s () s' ∧
      Inv s' (Function.update items v (node :: sweep x rest)) := by
  have hholds := hinv.holds v
  have hhead : (s.lists v).mHead = some node.1 := by
    rw [hholds.head, hitems]
    rfl
  have hnonzero : (s.lists v).mSize ≠ 0 := fun hzero =>
    absurd (hholds.mSize_eq_zero.mp hzero) (by simp [hitems])
  have hfuel : rest.length < maxSteps := by
    have hsmall := hholds.small
    rw [hitems, List.length_cons] at hsmall
    rw [maxSteps]
    omega
  obtain ⟨z, s', hloop, hs'⟩ := sweep_loop hinv [] hitems (fun _ => harg) hsweeps hfuel
  refine ⟨s', ?_, hs'⟩
  rw [remove_eq]
  refine (returns_self rfl).bind ?_
  rw [if_neg hnonzero]
  refine (Returns.loop_exit (removeFirst_ne hinv hitems harg hne)).bind ?_
  refine (returns_self rfl).bind ?_
  rw [hhead]
  exact hloop.bind (returns_pure () s')

theorem remove_stuck (hinv : Inv s items) (hitems : items v = node :: rest)
    (harg : Arg.Denotes items x arg) (hne : node.2 ≠ x) (hsweeps : ¬ Sweeps x arg rest) :
    Stuck (remove v arg) s := by
  have hholds := hinv.holds v
  have hhead : (s.lists v).mHead = some node.1 := by
    rw [hholds.head, hitems]
    rfl
  have hnonzero : (s.lists v).mSize ≠ 0 := fun hzero =>
    absurd (hholds.mSize_eq_zero.mp hzero) (by simp [hitems])
  have hfuel : rest.length < maxSteps := by
    have hsmall := hholds.small
    rw [hitems, List.length_cons] at hsmall
    rw [maxSteps]
    omega
  rw [remove_eq]
  refine (returns_self rfl).bind_stuck ?_
  rw [if_neg hnonzero]
  refine (Returns.loop_exit (removeFirst_ne hinv hitems harg hne)).bind_stuck ?_
  refine (returns_self rfl).bind_stuck ?_
  rw [hhead]
  exact (sweep_loop_stuck hinv [] hitems harg hsweeps hfuel).bind

/-! ## A first node with the value -/

/-- The first node of a list has a `m_prev` that is not null, or has been
deleted. -/
def Dangling (v : ι) (t : Store ι α) : Prop :=
  ∃ head, (t.lists v).mHead = some head ∧ t.heap.prevAt head ≠ some none

omit [DecidableEq ι] [DecidableEq α] in
theorem preserves_heap {P : Store ι α → Prop} {p : Option ℕ}
    {write : LinkedHeap α → ℕ → LinkedHeap α}
    (hwrite : ∀ (t : Store ι α) addr, P t → P (t.withHeap (write t.heap addr))) :
    Preserves (assignTo p write : M ι α Unit) P := by
  intro t value t' ht hreturns
  obtain ⟨addr, -, rfl⟩ := returned_assignTo hreturns
  exact hwrite t addr ht

omit [DecidableEq ι] [DecidableEq α] in
theorem preserves_deref {P : Store ι α → Prop} {p : Option ℕ} :
    Preserves (deref p : M ι α (LinkedNode α)) P := by
  intro t value t' ht hreturns
  rwa [(returned_deref hreturns).2]

omit [DecidableEq ι] [DecidableEq α] in
theorem preserves_fetch {P : Store ι α → Prop} : Preserves (arg.fetch : M ι α α) P := by
  intro t value t' ht hreturns
  rwa [returned_fetch hreturns]

/-- No turn of the second loop makes the first node's `m_prev` null. -/
theorem sweepTurn_preserves (v : ι) (arg : Arg α) (pointer : Option ℕ) :
    Preserves (sweepTurn v arg pointer : M ι α _) (Dangling v) := by
  have hnext : ∀ p q, Preserves (setNext p q : M ι α Unit) (Dangling v) := fun p q =>
    preserves_heap fun t addr ⟨head, hhead, hprev⟩ => ⟨head, hhead, by simpa using hprev⟩
  have hprev : ∀ p (q : ℕ), Preserves (setPrev p (some q) : M ι α Unit) (Dangling v) := by
    refine fun p q => preserves_heap fun t addr ⟨head, hhead, hprev⟩ => ⟨head, hhead, ?_⟩
    by_cases hsame : head = addr
    · subst hsame
      rw [Store.heap_withHeap, LinkedHeap.prevAt, LinkedHeap.setPrev, LinkedHeap.nodes_modify_self,
        Option.map_map]
      intro heq
      obtain ⟨node, -, hnode⟩ := Option.map_eq_some_iff.mp heq
      cases hnode
    · rwa [Store.heap_withHeap, LinkedHeap.prevAt_setPrev_of_ne hsame]
  have hdelete : ∀ p, Preserves (delete p : M ι α Unit) (Dangling v) := by
    rintro (_ | p)
    · exact preserves_pure () _
    refine preserves_heap fun t addr ⟨head, hhead, hprev⟩ => ⟨head, hhead, ?_⟩
    by_cases hsame : head = addr
    · subst hsame
      simp [LinkedHeap.prevAt]
    · rwa [Store.heap_withHeap, LinkedHeap.prevAt, LinkedHeap.map_nodes_free hsame]
  have hadd : Preserves (addSize v (-1) : M ι α Unit) (Dangling v) := by
    rintro t value t' ⟨head, hhead, hprev⟩ hreturns
    obtain ⟨-, rfl⟩ := returned_addSize hreturns
    exact ⟨head, by rw [Store.lists_withList]; exact hhead, hprev⟩
  cases pointer with
  | none => exact preserves_pure none _
  | some addr =>
      rw [sweepTurn, if_neg (by simp)]
      have hstep : Preserves (do
          let node ← deref (some addr)
          return some node.next : M ι α _) (Dangling v) :=
        preserves_deref.bind fun node => preserves_pure _ _
      refine preserves_deref.bind fun node => Preserves.ite (preserves_pure none _) ?_
      refine preserves_deref.bind fun temp => preserves_fetch.bind fun x => ?_
      refine Preserves.ite ((hnext _ _).bind fun _ => ?_) hstep
      refine preserves_deref.bind fun temp => (hprev _ addr).bind fun _ => ?_
      exact (hdelete _).bind fun _ => hadd.bind fun _ => hstep

/-- The nodes `S` go on from one to another and each has one before it; the
first node of the list is among them. -/
def Headless (v : ι) (S : List ℕ) (t : Store ι α) : Prop :=
  ∃ head ∈ S, (t.lists v).mHead = some head ∧ ∀ addr ∈ S, t.heap.prevAt addr ≠ some none ∧
    ∀ next, t.heap.nextAt addr = some (some next) → next ∈ S

/-- The first loop does not leave such nodes. -/
theorem removeFirst_preserves (v : ι) (arg : Arg α) (S : List ℕ) :
    Preserves (removeFirst v arg : M ι α _) (Headless v S) := by
  rintro t value t' ⟨head, hmem, hhead, hS⟩ hreturns
  obtain ⟨this, t₁, hself, h₁⟩ := hreturns.bind_inv
  obtain ⟨rfl, rfl⟩ := returned_self hself
  rw [hhead, if_neg (by simp)] at h₁
  obtain ⟨first, t₂, hderef, h₂⟩ := h₁.bind_inv
  obtain ⟨hfirst, rfl⟩ := returned_deref hderef
  obtain ⟨x, t₃, hfetch, h₃⟩ := h₂.bind_inv
  obtain rfl := returned_fetch hfetch
  split_ifs at h₃ with hvalue
  · obtain ⟨second, t₄, hderef', h₄⟩ := h₃.bind_inv
    obtain ⟨hsecond, rfl⟩ := returned_deref hderef'
    obtain ⟨_, t₅, hdelete, h₅⟩ := h₄.bind_inv
    obtain ⟨addr, heq, rfl⟩ := returned_assignTo hdelete
    obtain rfl := Option.some.inj heq
    obtain ⟨_, t₆, hupdate, h₆⟩ := h₅.bind_inv
    obtain ⟨-, rfl⟩ := hupdate.unique (returns_update rfl _)
    obtain ⟨_, t₇, hadd, h₇⟩ := h₆.bind_inv
    obtain ⟨-, rfl⟩ := returned_addSize hadd
    obtain ⟨-, rfl⟩ := h₇.pure_inv
    obtain ⟨next, hnext, -⟩ := Option.bind_eq_some_iff.mp hsecond
    have hfollow : t₄.heap.nextAt head = some (some next) := by
      rw [LinkedHeap.nextAt, show t₄.heap.nodes head = some first from hfirst, ← hnext]
      rfl
    refine ⟨next, (hS head hmem).2 next hfollow, ?_, ?_⟩
    · rw [Store.lists_withList, Store.lists_withList]
      exact hnext
    · intro addr haddr
      by_cases hsame : addr = head
      · subst hsame
        simp [LinkedHeap.prevAt, LinkedHeap.nextAt]
      · have hprev := (hS addr haddr).1
        have hnext' := (hS addr haddr).2
        rw [LinkedHeap.prevAt, ← LinkedHeap.map_nodes_free hsame] at hprev
        rw [LinkedHeap.nextAt, ← LinkedHeap.map_nodes_free hsame] at hnext'
        exact ⟨hprev, hnext'⟩
  · obtain ⟨-, rfl⟩ := h₃.pure_inv
    exact ⟨head, hmem, hhead, hS⟩

theorem removeFirst_single (hinv : Inv s items) (hitems : items v = [node])
    (harg : Arg.Denotes items node.2 arg) : Stuck (removeFirst v arg) s := by
  have hnode := hinv.nodes_eq [] hitems
  have hhead : (s.lists v).mHead = some node.1 := by
    rw [(hinv.holds v).head, hitems]
    rfl
  refine (returns_self rfl).bind_stuck ?_
  rw [hhead, if_neg (by simp)]
  refine (returns_deref hnode).bind_stuck ?_
  refine (hinv.returns_fetch harg rfl).bind_stuck ?_
  rw [if_pos rfl]
  exact (stuck_deref rfl).bind

/-- The first node goes, and the second keeps its `m_prev`. -/
theorem removeFirst_headless {second : ℕ × α} (hinv : Inv s items)
    (hitems : items v = node :: second :: back) (harg : Arg.Denotes items node.2 arg) :
    ∃ t, Returns (removeFirst v arg) s (some ()) t ∧
      Headless v ((second :: back).map Prod.fst) t := by
  have hholds := hinv.holds v
  have hnode := hinv.nodes_eq [] hitems
  have hsecond := hinv.nodes_eq [node] hitems
  have hnotMem := hholds.nodup
  have hsize := hholds.size
  have hsmall := hholds.small
  have hlive : s.heap.Live node.1 := hholds.live (by simp [hitems])
  rw [hitems, List.map_cons, List.nodup_cons] at hnotMem
  have hhead : (s.lists v).mHead = some node.1 := by
    rw [hholds.head, hitems]
    rfl
  have hfits : FitsInt ((s.lists v).mSize + -1) := ⟨by omega, by omega⟩
  have hadd : Returns (addSize v (-1)) ((s.withHeap (s.heap.free node.1)).withList v
      { s.lists v with mHead := some second.1 }) ()
      ((s.withHeap (s.heap.free node.1)).withList v
        ⟨some second.1, (s.lists v).mTail, (s.lists v).mSize + -1⟩) :=
    returns_addSize_withList _ _ hfits
  refine ⟨(s.withHeap (s.heap.free node.1)).withList v
    ⟨some second.1, (s.lists v).mTail, (s.lists v).mSize + -1⟩, ?_, second.1, by simp, ?_, ?_⟩
  · refine (returns_self rfl).bind ?_
    rw [hhead, if_neg (by simp)]
    refine (returns_deref hnode).bind ?_
    refine (hinv.returns_fetch harg rfl).bind ?_
    rw [if_pos rfl]
    refine (returns_deref hsecond).bind ?_
    refine (returns_delete hlive).bind ?_
    refine (returns_update rfl _).bind ?_
    exact hadd.bind (returns_pure _ _)
  · rw [Store.lists_withList]
  · intro addr haddr
    have hne : addr ≠ node.1 := fun heq => hnotMem.1 (heq ▸ haddr)
    obtain ⟨item, hitem, rfl⟩ := List.mem_map.mp haddr
    obtain ⟨left, right, hsplit⟩ := List.append_of_mem hitem
    have hstands := hinv.nodes_eq (node :: left)
      (show items v = node :: left ++ item :: right by rw [hitems, hsplit, List.cons_append])
    have hnodes : (s.heap.free node.1).nodes item.1 = _ :=
      (LinkedHeap.nodes_free_of_ne hne).trans hstands
    rw [Store.heap_withList, Store.heap_withHeap, LinkedHeap.prevAt, LinkedHeap.nextAt, hnodes]
    refine ⟨by simp [List.getLast?_cons], fun next hnext => ?_⟩
    have hright : (right.map Prod.fst).head? = some next := Option.some.inj hnext
    rw [hsplit, List.map_append, List.map_cons]
    exact List.mem_append_right _ (List.mem_cons_of_mem _ (List.mem_of_mem_head? hright))

/-- Where the first node has the value, `remove` has no outcome or leaves a first
node whose `m_prev` is not null. -/
theorem remove_dangling (hinv : Inv s items) (hitems : items v = node :: rest)
    (harg : Arg.Denotes items node.2 arg) (hcall : Returns (remove v arg) s () s') :
    Dangling v s' := by
  have hnonzero : (s.lists v).mSize ≠ 0 := fun hzero =>
    absurd ((hinv.holds v).mSize_eq_zero.mp hzero) (by simp [hitems])
  rw [remove_eq] at hcall
  obtain ⟨this, s₁, hself, h₁⟩ := hcall.bind_inv
  obtain ⟨rfl, rfl⟩ := returned_self hself
  rw [if_neg hnonzero] at h₁
  obtain ⟨z, s₂, hfirst, h₂⟩ := h₁.bind_inv
  obtain ⟨fuel, next, s₃, -, hturn, hloop⟩ := hfirst.loop_inv
  have hdangling : Dangling v s₂ := by
    cases rest with
    | nil => exact absurd hturn (removeFirst_single hinv hitems harg).not_returns
    | cons second back =>
        obtain ⟨t, hturn', hheadless⟩ := removeFirst_headless hinv hitems harg
        obtain ⟨rfl, rfl⟩ := hturn.unique hturn'
        obtain ⟨head, hmem, hhead, hS⟩ := preserves_loop
          (fun _ => removeFirst_preserves v arg _) fuel () _ _ _ hheadless hloop
        exact ⟨head, hhead, (hS head hmem).1⟩
  obtain ⟨this, s₄, hself', h₄⟩ := h₂.bind_inv
  obtain ⟨rfl, rfl⟩ := returned_self hself'
  obtain ⟨z', s₅, hsecond, h₅⟩ := h₄.bind_inv
  obtain ⟨-, rfl⟩ := h₅.pure_inv
  exact preserves_loop (fun pointer => sweepTurn_preserves v arg pointer) _ _ _ _ _ hdangling hsecond

end LinkedList

end CppProjects
