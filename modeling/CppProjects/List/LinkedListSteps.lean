import CppProjects.List.LinkedList

/-!
# Rules for the steps of `List`

What each access to a node and to the fields of a list returns, and in which
store.
-/

namespace CppProjects

open CInt Program

namespace LinkedList

variable {ι α : Type}

/-! ## Stores -/

namespace Store

def withHeap (s : Store ι α) (heap : LinkedHeap α) : Store ι α := { s with heap := heap }

def withList [DecidableEq ι] (s : Store ι α) (v : ι) (this : LinkedList) : Store ι α :=
  { s with lists := Function.update s.lists v this }

variable (s : Store ι α) {v w : ι} {this that : LinkedList} {heap heap' : LinkedHeap α}

@[simp]
theorem heap_withHeap : (s.withHeap heap).heap = heap := rfl

@[simp]
theorem lists_withHeap : (s.withHeap heap).lists = s.lists := rfl

variable [DecidableEq ι]

@[simp]
theorem heap_withList : (s.withList v this).heap = s.heap := rfl

@[simp]
theorem lists_withList : (s.withList v this).lists v = this := Function.update_self ..

@[simp]
theorem withList_withHeap :
    (s.withList v this).withHeap heap = (s.withHeap heap).withList v this := rfl

@[simp]
theorem withList_withList : (s.withList v this).withList v that = s.withList v that := by
  simp [withList]

theorem withList_comm (hne : v ≠ w) :
    (s.withList v this).withList w that = (s.withList w that).withList v this := by
  rw [withList, withList, withList, withList, Function.update_comm hne]

theorem withList_self (hthis : s.lists v = this) : s.withList v this = s := by
  rw [withList, ← hthis, Function.update_eq_self]

end Store

variable {s s' : Store ι α} {v w : ι} {this : LinkedList} {addr : ℕ} {node : LinkedNode α}
  {p q : Option ℕ}

/-! ## Memory -/

theorem returns_self (hthis : s.lists v = this) : Returns (self v) s this s := by
  rw [← hthis]
  rfl

theorem returns_deref (hnode : s.heap.nodes addr = some node) :
    Returns (deref (some addr)) s node s :=
  (returns_get s).bind (returns_defined hnode s)

theorem stuck_deref (hnode : p.bind s.heap.nodes = none) : Stuck (deref p) s :=
  (returns_get s).bind_stuck (stuck_defined hnode s)

theorem returns_assignTo (hlive : s.heap.Live addr) (write : LinkedHeap α → ℕ → LinkedHeap α) :
    Returns (assignTo (some addr) write) s () (s.withHeap (write s.heap addr)) := by
  refine (returns_get s).bind ((returns_defined rfl s).bind ?_)
  rw [if_pos (show (s.heap.nodes addr).isSome = true from hlive)]
  rfl

theorem stuck_assignTo_null (write : LinkedHeap α → ℕ → LinkedHeap α) :
    Stuck (assignTo none write) s :=
  (returns_get s).bind_stuck ((stuck_defined rfl s).bind)

theorem returns_setPrev (hlive : s.heap.Live addr) :
    Returns (setPrev (some addr) q) s () (s.withHeap (s.heap.setPrev addr q)) :=
  returns_assignTo hlive _

theorem returns_setNext (hlive : s.heap.Live addr) :
    Returns (setNext (some addr) q) s () (s.withHeap (s.heap.setNext addr q)) :=
  returns_assignTo hlive _

theorem returns_delete (hlive : s.heap.Live addr) :
    Returns (delete (some addr)) s () (s.withHeap (s.heap.free addr)) :=
  returns_assignTo hlive _

section Fields

variable [DecidableEq ι]

theorem returns_update (hthis : s.lists v = this) (f : LinkedList → LinkedList) :
    Returns (update v f) s () (s.withList v (f this)) := by
  rw [← hthis]
  rfl

theorem returns_update_withList (f : LinkedList → LinkedList) :
    Returns (update v f) (s.withList v this) () (s.withList v (f this)) := by
  have hupdate := returns_update (show (s.withList v this).lists v = this by simp) f
  rwa [Store.withList_withList] at hupdate

theorem returns_addSize (hthis : s.lists v = this) {n : ℤ} (hfits : FitsInt (this.mSize + n)) :
    Returns (addSize v n) s () (s.withList v { this with mSize := this.mSize + n }) :=
  (returns_self hthis).bind ((returns_intExpr hfits s).bind (returns_update hthis _))

theorem returns_addSize_withList (v : ι) (this : LinkedList) {n : ℤ}
    (hfits : FitsInt (this.mSize + n)) :
    Returns (addSize v n) (s.withList v this) ()
      (s.withList v { this with mSize := this.mSize + n }) := by
  have hadd := returns_addSize (show (s.withList v this).lists v = this by simp) hfits
  rwa [Store.withList_withList] at hadd

/-- How an operation sets the ends and the size. -/
theorem returns_update_addSize (hthis : s.lists v = this) (f : LinkedList → LinkedList) {n : ℤ}
    (hfits : FitsInt ((f this).mSize + n)) :
    Returns (do
      update v f
      addSize v n) s () (s.withList v { f this with mSize := (f this).mSize + n }) := by
  exact (returns_update hthis f).bind (returns_addSize_withList _ _ hfits)

theorem stuck_addSize (hthis : s.lists v = this) {n : ℤ} (hfits : ¬ FitsInt (this.mSize + n)) :
    Stuck (addSize v n) s :=
  (returns_self hthis).bind_stuck ((stuck_intExpr hfits s).bind)

end Fields

/-! ## What a step that returned has done -/

theorem returned_self (h : Returns (self v) s this s') : this = s.lists v ∧ s' = s :=
  h.unique (returns_self rfl)

theorem returned_deref (h : Returns (deref p) s node s') :
    p.bind s.heap.nodes = some node ∧ s' = s := by
  obtain ⟨t, s₁, hget, hread⟩ := h.bind_inv
  obtain ⟨rfl, rfl⟩ := hget.get_inv
  exact hread.defined_inv

theorem returned_assignTo {write : LinkedHeap α → ℕ → LinkedHeap α} {u : Unit}
    (h : Returns (assignTo p write) s u s') :
    ∃ addr, p = some addr ∧ s' = s.withHeap (write s.heap addr) := by
  obtain ⟨t, s₁, hget, hrest⟩ := h.bind_inv
  obtain ⟨rfl, rfl⟩ := hget.get_inv
  obtain ⟨addr, s₂, hdefined, hwrite⟩ := hrest.bind_inv
  obtain ⟨hp, rfl⟩ := hdefined.defined_inv
  split_ifs at hwrite with hlive
  · exact ⟨addr, hp, (hwrite.unique (show Returns _ _ () _ from rfl)).2⟩
  · cases hwrite

theorem returned_fetch {x : α} {arg : Arg α} (h : Returns arg.fetch s x s') : s' = s := by
  cases arg with
  | temp value => exact h.pure_inv.2
  | node addr =>
      obtain ⟨t, s₁, hget, hread⟩ := h.bind_inv
      obtain ⟨rfl, rfl⟩ := hget.get_inv
      exact hread.defined_inv.2

theorem returned_addSize [DecidableEq ι] {n : ℤ} {u : Unit} (h : Returns (addSize v n) s u s') :
    FitsInt ((s.lists v).mSize + n) ∧
      s' = s.withList v { s.lists v with mSize := (s.lists v).mSize + n } := by
  by_cases hfits : FitsInt ((s.lists v).mSize + n)
  · exact ⟨hfits, (h.unique (returns_addSize rfl hfits)).2⟩
  · exact absurd h (stuck_addSize rfl hfits).not_returns

/-! ## Iterators -/

theorem returns_same : Returns (Iterator.same ⟨some p⟩ ⟨some q⟩) s (decide (p = q)) s :=
  (returns_defined rfl s).bind ((returns_defined rfl s).bind (returns_pure _ s))

theorem returns_advance (hnode : s.heap.nodes addr = some node) :
    Returns (Iterator.advance ⟨some (some addr)⟩) s ⟨some node.next⟩ s :=
  (returns_defined rfl s).bind ((returns_deref hnode).bind (returns_pure _ s))

theorem returns_begin (hthis : s.lists v = this) : Returns (begin' v) s ⟨some this.mHead⟩ s :=
  (returns_self hthis).bind (returns_pure _ s)

end LinkedList

end CppProjects
