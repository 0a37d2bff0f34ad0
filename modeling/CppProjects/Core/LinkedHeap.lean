import Mathlib.Tactic

/-!
# Heaps of doubly linked nodes

Nodes from `new` at numbered addresses, each with a pointer to the node before
and to the node after it.  Two pointers are linked when each node among them
points to the other; segments are chains of links, and an edit of the heap is
local to the links it touches.
-/

namespace CppProjects

/-- A node; `none` is the null pointer. -/
structure LinkedNode (α : Type) where
  value : α
  prev : Option ℕ
  next : Option ℕ
deriving DecidableEq, Repr

/-- A node with its pointers exchanged. -/
def LinkedNode.flip {α : Type} (node : LinkedNode α) : LinkedNode α :=
  ⟨node.value, node.next, node.prev⟩

/-- Nodes by address; no address from `top` on is in use. -/
structure LinkedHeap (α : Type) where
  nodes : ℕ → Option (LinkedNode α)
  top : ℕ
  fresh : ∀ addr, top ≤ addr → nodes addr = none

namespace LinkedHeap

variable {α : Type}

def empty : LinkedHeap α := ⟨fun _ => none, 0, fun _ _ => rfl⟩

/-- A new node that is not linked, at the address `top`. -/
def alloc (heap : LinkedHeap α) (value : α) : LinkedHeap α where
  nodes := Function.update heap.nodes heap.top (some ⟨value, none, none⟩)
  top := heap.top + 1
  fresh := by
    intro addr haddr
    rw [Function.update_of_ne (by omega)]
    exact heap.fresh addr (by omega)

def free (heap : LinkedHeap α) (addr : ℕ) : LinkedHeap α where
  nodes := Function.update heap.nodes addr none
  top := heap.top
  fresh := by
    intro other hother
    by_cases heq : other = addr
    · rw [heq, Function.update_self]
    · rw [Function.update_of_ne heq]
      exact heap.fresh other hother

/-- A change of the node at an address, if there is one. -/
def modify (heap : LinkedHeap α) (addr : ℕ) (f : LinkedNode α → LinkedNode α) : LinkedHeap α where
  nodes := Function.update heap.nodes addr ((heap.nodes addr).map f)
  top := heap.top
  fresh := by
    intro other hother
    by_cases heq : other = addr
    · rw [← heq, Function.update_self, heap.fresh other hother, Option.map_none]
    · rw [Function.update_of_ne heq]
      exact heap.fresh other hother

/-- `addr -> prev = p`. -/
def setPrev (heap : LinkedHeap α) (addr : ℕ) (p : Option ℕ) : LinkedHeap α :=
  heap.modify addr fun node => { node with prev := p }

/-- `addr -> next = p`. -/
def setNext (heap : LinkedHeap α) (addr : ℕ) (p : Option ℕ) : LinkedHeap α :=
  heap.modify addr fun node => { node with next := p }

def valueAt (heap : LinkedHeap α) (addr : ℕ) : Option α := (heap.nodes addr).map LinkedNode.value

def prevAt (heap : LinkedHeap α) (addr : ℕ) : Option (Option ℕ) :=
  (heap.nodes addr).map LinkedNode.prev

def nextAt (heap : LinkedHeap α) (addr : ℕ) : Option (Option ℕ) :=
  (heap.nodes addr).map LinkedNode.next

/-! ## Reading after writing -/

variable {heap heap' : LinkedHeap α} {addr other third : ℕ} {value : α} {p q r : Option ℕ}
  {node : LinkedNode α} {f : LinkedNode α → LinkedNode α}

@[ext]
theorem ext (hnodes : heap.nodes = heap'.nodes) (htop : heap.top = heap'.top) : heap = heap' := by
  cases heap
  cases heap'
  cases hnodes
  cases htop
  rfl

theorem ne_top (haddr : heap.nodes addr = some node) : addr ≠ heap.top := by
  rintro rfl
  rw [heap.fresh _ le_rfl] at haddr
  cases haddr

@[simp]
theorem nodes_alloc_top : (heap.alloc value).nodes heap.top = some ⟨value, none, none⟩ :=
  Function.update_self ..

theorem nodes_alloc_of_ne (hne : addr ≠ heap.top) :
    (heap.alloc value).nodes addr = heap.nodes addr := Function.update_of_ne hne ..

@[simp]
theorem nodes_free_self : (heap.free addr).nodes addr = none := Function.update_self ..

theorem nodes_free_of_ne (hne : other ≠ addr) : (heap.free addr).nodes other = heap.nodes other :=
  Function.update_of_ne hne ..

@[simp]
theorem nodes_modify_self : (heap.modify addr f).nodes addr = (heap.nodes addr).map f :=
  Function.update_self ..

theorem nodes_modify_of_ne (hne : other ≠ addr) :
    (heap.modify addr f).nodes other = heap.nodes other := Function.update_of_ne hne ..

theorem map_nodes_alloc {β : Type} {read : LinkedNode α → β} {b : β}
    (haddr : (heap.nodes addr).map read = some b) :
    ((heap.alloc value).nodes addr).map read = some b := by
  obtain ⟨node, hnode, -⟩ := Option.map_eq_some_iff.mp haddr
  rw [nodes_alloc_of_ne (ne_top hnode), haddr]

theorem map_nodes_free {β : Type} {read : LinkedNode α → β} (hne : other ≠ addr) :
    ((heap.free addr).nodes other).map read = (heap.nodes other).map read := by
  rw [nodes_free_of_ne hne]

/-- What a change leaves as it is in every node can still be read. -/
theorem map_nodes_modify {β : Type} (f : LinkedNode α → LinkedNode α) (read : LinkedNode α → β)
    (hread : ∀ node, read (f node) = read node) (other : ℕ) :
    ((heap.modify addr f).nodes other).map read = (heap.nodes other).map read := by
  by_cases heq : other = addr
  · rw [heq, nodes_modify_self, Option.map_map]
    congr 1
    funext node
    exact hread node
  · rw [nodes_modify_of_ne heq]

@[simp]
theorem valueAt_setPrev : (heap.setPrev addr p).valueAt other = heap.valueAt other :=
  map_nodes_modify (fun node => { node with prev := p }) LinkedNode.value (fun _ => rfl) other

@[simp]
theorem valueAt_setNext : (heap.setNext addr p).valueAt other = heap.valueAt other :=
  map_nodes_modify (fun node => { node with next := p }) LinkedNode.value (fun _ => rfl) other

@[simp]
theorem prevAt_setNext : (heap.setNext addr p).prevAt other = heap.prevAt other :=
  map_nodes_modify (fun node => { node with next := p }) LinkedNode.prev (fun _ => rfl) other

@[simp]
theorem nextAt_setPrev : (heap.setPrev addr p).nextAt other = heap.nextAt other :=
  map_nodes_modify (fun node => { node with prev := p }) LinkedNode.next (fun _ => rfl) other

theorem prevAt_setPrev_of_ne (hne : other ≠ addr) :
    (heap.setPrev addr p).prevAt other = heap.prevAt other := by
  rw [prevAt, setPrev, nodes_modify_of_ne hne, prevAt]

theorem nextAt_setNext_of_ne (hne : other ≠ addr) :
    (heap.setNext addr p).nextAt other = heap.nextAt other := by
  rw [nextAt, setNext, nodes_modify_of_ne hne, nextAt]

/-- Nodes that are there have not been deleted. -/
def Live (heap : LinkedHeap α) (addr : ℕ) : Prop := (heap.nodes addr).isSome

theorem live_of_map {β : Type} {read : LinkedNode α → β} {b : β}
    (haddr : (heap.nodes addr).map read = some b) : heap.Live addr := by
  rw [Live, ← Option.isSome_map, haddr]
  rfl

theorem Live.setNext (hlive : heap.Live addr) : (heap.setNext other p).Live addr := by
  rw [Live, ← Option.isSome_map] at hlive ⊢
  rwa [← valueAt, valueAt_setNext]

theorem Live.setPrev (hlive : heap.Live addr) : (heap.setPrev other p).Live addr := by
  rw [Live, ← Option.isSome_map] at hlive ⊢
  rwa [← valueAt, valueAt_setPrev]

theorem live_setNext : (heap.setNext other p).Live addr ↔ heap.Live addr := by
  rw [Live, ← Option.isSome_map (f := LinkedNode.value), ← valueAt, valueAt_setNext, valueAt,
    Option.isSome_map, Live]

theorem live_setPrev : (heap.setPrev other p).Live addr ↔ heap.Live addr := by
  rw [Live, ← Option.isSome_map (f := LinkedNode.value), ← valueAt, valueAt_setPrev, valueAt,
    Option.isSome_map, Live]

theorem live_free : (heap.free other).Live addr ↔ heap.Live addr ∧ addr ≠ other := by
  by_cases heq : addr = other
  · subst heq
    simp [Live]
  · rw [Live, nodes_free_of_ne heq, ← Live, and_iff_left heq]

theorem prevAt_setPrev_self (haddr : heap.Live addr) :
    (heap.setPrev addr p).prevAt addr = some p := by
  obtain ⟨node, hnode⟩ := Option.isSome_iff_exists.mp haddr
  rw [prevAt, LinkedHeap.setPrev, nodes_modify_self, hnode]
  rfl

theorem nextAt_setNext_self (haddr : heap.Live addr) :
    (heap.setNext addr p).nextAt addr = some p := by
  obtain ⟨node, hnode⟩ := Option.isSome_iff_exists.mp haddr
  rw [nextAt, LinkedHeap.setNext, nodes_modify_self, hnode]
  rfl

/-! ## Links -/

/-- Each node of the two points to the other pointer. -/
def Linked (heap : LinkedHeap α) (p q : Option ℕ) : Prop :=
  (∀ addr ∈ p, heap.nextAt addr = some q) ∧ ∀ addr ∈ q, heap.prevAt addr = some p

/-- The nodes between two pointers, linked to each other and to both. -/
def Segment (heap : LinkedHeap α) (p : Option ℕ) (addrs : List ℕ) (q : Option ℕ) : Prop :=
  (p :: (addrs.map some ++ [q])).IsChain heap.Linked

variable {addrs left right : List ℕ}

@[simp]
theorem segment_nil : heap.Segment p [] q ↔ heap.Linked p q := List.isChain_pair

theorem segment_cons :
    heap.Segment p (addr :: right) q ↔ heap.Linked p (some addr) ∧ heap.Segment (some addr) right q :=
  List.isChain_cons_cons

/-- A segment is two of them that share a node. -/
theorem segment_append_cons : heap.Segment p (left ++ addr :: right) q ↔
    heap.Segment p left (some addr) ∧ heap.Segment (some addr) right q := by
  have hsplit : (p :: left.map some ++ some addr :: (right.map some ++ [q])).IsChain heap.Linked ↔
      (p :: left.map some ++ [some addr]).IsChain heap.Linked ∧
        (some addr :: (right.map some ++ [q])).IsChain heap.Linked := List.isChain_split
  simpa [Segment] using hsplit

/-- A segment depends on the `next` pointers of its nodes and of the one before,
and on the `prev` pointers of its nodes and of the one behind. -/
theorem Segment.transport (hsegment : heap.Segment p addrs q)
    (hbefore : ∀ addr ∈ p, heap'.nextAt addr = heap.nextAt addr)
    (hnext : ∀ addr ∈ addrs, heap'.nextAt addr = heap.nextAt addr)
    (hprev : ∀ addr ∈ addrs, heap'.prevAt addr = heap.prevAt addr)
    (hbehind : ∀ addr ∈ q, heap'.prevAt addr = heap.prevAt addr) : heap'.Segment p addrs q := by
  induction addrs generalizing p with
  | nil =>
      rw [segment_nil] at hsegment ⊢
      refine ⟨?_, ?_⟩
      · intro addr haddr
        rw [hbefore addr haddr, hsegment.1 addr haddr]
      · intro addr haddr
        rw [hbehind addr haddr, hsegment.2 addr haddr]
  | cons first addrs ih =>
      rw [segment_cons] at hsegment ⊢
      obtain ⟨hfirst, hrest⟩ := hsegment
      refine ⟨⟨?_, ?_⟩, ih hrest ?_ ?_ ?_⟩
      · intro addr haddr
        rw [hbefore addr haddr, hfirst.1 addr haddr]
      · rintro _ ⟨⟩
        rw [hprev first (by simp), hfirst.2 first rfl]
      · rintro _ ⟨⟩
        exact hnext first (by simp)
      · exact fun addr haddr => hnext addr (by simp [haddr])
      · exact fun addr haddr => hprev addr (by simp [haddr])

theorem Linked.alloc (hlinked : heap.Linked p q) : (heap.alloc value).Linked p q :=
  ⟨fun addr haddr => map_nodes_alloc (hlinked.1 addr haddr),
    fun addr haddr => map_nodes_alloc (hlinked.2 addr haddr)⟩

theorem Segment.alloc (hsegment : heap.Segment p addrs q) : (heap.alloc value).Segment p addrs q :=
  List.IsChain.imp (fun _ _ hlinked => hlinked.alloc) hsegment

/-- What is not on a segment may change. -/
theorem Segment.setNext (hsegment : heap.Segment p addrs q) (hp : p ≠ some addr)
    (haddr : addr ∉ addrs) : (heap.setNext addr r).Segment p addrs q := by
  refine hsegment.transport ?_ ?_ ?_ ?_
  · exact fun other hother => nextAt_setNext_of_ne fun heq => hp (heq ▸ hother)
  · exact fun other hother => nextAt_setNext_of_ne fun heq => haddr (heq ▸ hother)
  · exact fun other _ => prevAt_setNext
  · exact fun other _ => prevAt_setNext

theorem Segment.setPrev (hsegment : heap.Segment p addrs q) (haddr : addr ∉ addrs)
    (hq : q ≠ some addr) : (heap.setPrev addr r).Segment p addrs q := by
  refine hsegment.transport ?_ ?_ ?_ ?_
  · exact fun other _ => nextAt_setPrev
  · exact fun other _ => nextAt_setPrev
  · exact fun other hother => prevAt_setPrev_of_ne fun heq => haddr (heq ▸ hother)
  · exact fun other hother => prevAt_setPrev_of_ne fun heq => hq (heq ▸ hother)

theorem Segment.free (hsegment : heap.Segment p addrs q) (hp : p ≠ some addr)
    (haddr : addr ∉ addrs) (hq : q ≠ some addr) : (heap.free addr).Segment p addrs q := by
  refine hsegment.transport ?_ ?_ ?_ ?_
  · exact fun other hother => map_nodes_free fun heq => hp (heq ▸ hother)
  · exact fun other hother => map_nodes_free fun heq => haddr (heq ▸ hother)
  · exact fun other hother => map_nodes_free fun heq => haddr (heq ▸ hother)
  · exact fun other hother => map_nodes_free fun heq => hq (heq ▸ hother)

/-- The nodes of a segment are in use. -/
theorem Segment.live (hsegment : heap.Segment p addrs q) (haddr : addr ∈ addrs) :
    heap.Live addr := by
  obtain ⟨left, right, rfl⟩ := List.append_of_mem haddr
  rw [segment_append_cons] at hsegment
  cases right with
  | nil => exact live_of_map ((segment_nil.mp hsegment.2).1 addr rfl)
  | cons next right => exact live_of_map ((segment_cons.mp hsegment.2).1.1 addr rfl)

theorem Segment.next (hsegment : heap.Segment (some addr) right q) :
    heap.nextAt addr = some (right.head?.or q) := by
  cases right with
  | nil => exact (segment_nil.mp hsegment).1 addr rfl
  | cons other right => exact (segment_cons.mp hsegment).1.1 addr rfl

theorem Segment.prev (hsegment : heap.Segment p left (some addr)) :
    heap.prevAt addr = some (left.getLast?.or p) := by
  rcases left.eq_nil_or_concat with rfl | ⟨left, other, rfl⟩
  · exact (segment_nil.mp hsegment).2 addr rfl
  · rw [List.concat_eq_append] at hsegment ⊢
    have hlast := (segment_nil.mp (segment_append_cons.mp hsegment).2).2 addr rfl
    rw [hlast, List.getLast?_concat, Option.some_or]

/-- A node that stands between two others points to both. -/
theorem Segment.nodes_eq (hsegment : heap.Segment p (left ++ addr :: right) q)
    (hvalue : heap.valueAt addr = some value) :
    heap.nodes addr = some ⟨value, left.getLast?.or p, right.head?.or q⟩ := by
  rw [segment_append_cons] at hsegment
  have hprev := hsegment.1.prev
  have hnext := hsegment.2.next
  obtain ⟨node, hnode, rfl⟩ := Option.map_eq_some_iff.mp hvalue
  rw [prevAt, hnode, Option.map_some, Option.some.injEq] at hprev
  rw [nextAt, hnode, Option.map_some, Option.some.injEq] at hnext
  rw [hnode, ← hprev, ← hnext]

/-! ## Edits -/

/-- Makes two nodes point to each other. -/
def link (heap : LinkedHeap α) (addr other : ℕ) : LinkedHeap α :=
  (heap.setNext addr (some other)).setPrev other (some addr)

@[simp]
theorem valueAt_link : (heap.link addr other).valueAt third = heap.valueAt third := by
  rw [link, valueAt_setPrev, valueAt_setNext]

theorem nodes_link_of_ne (hfirst : third ≠ addr) (hsecond : third ≠ other) :
    (heap.link addr other).nodes third = heap.nodes third := by
  rw [link, setPrev, setNext, nodes_modify_of_ne hsecond, nodes_modify_of_ne hfirst]

theorem segment_alloc (heap : LinkedHeap α) (value : α) :
    (heap.alloc value).Segment none [heap.top] none := by
  refine segment_cons.mpr ⟨⟨by simp, ?_⟩, segment_nil.mpr ⟨?_, by simp⟩⟩
  · rintro _ ⟨⟩
    rw [prevAt, nodes_alloc_top]
    rfl
  · rintro _ ⟨⟩
    rw [nextAt, nodes_alloc_top]
    rfl

theorem setPrev_setNext (heap : LinkedHeap α) :
    (heap.setPrev addr p).setNext other q = (heap.setNext other q).setPrev addr p := by
  apply ext
  · funext third
    by_cases hfirst : third = addr
    · by_cases hsecond : third = other
      · subst hfirst hsecond
        simp [setPrev, setNext, Function.comp_def]
      · rw [hfirst] at hsecond
        simp [setPrev, setNext, hfirst, nodes_modify_of_ne hsecond]
    · by_cases hsecond : third = other
      · rw [hsecond] at hfirst
        simp [setPrev, setNext, hsecond, nodes_modify_of_ne hfirst]
      · simp [setPrev, setNext, nodes_modify_of_ne hfirst, nodes_modify_of_ne hsecond]
  · rfl

/-- Two nodes linked to each other. -/
theorem linked_link (hfirst : heap.Live addr) (hsecond : heap.Live other) :
    (heap.link addr other).Linked (some addr) (some other) := by
  refine ⟨?_, ?_⟩
  · rintro _ ⟨⟩
    rw [link, nextAt_setPrev, nextAt_setNext_self hfirst]
  · rintro _ ⟨⟩
    exact prevAt_setPrev_self hsecond.setNext

/-- Two segments joined by a link between the node behind the first and the node
before the second. -/
theorem Segment.link (hleft : heap.Segment p left (some addr))
    (hright : heap.Segment (some other) right q) (hfirst : heap.Live addr)
    (hsecond : heap.Live other) (hnodup : (left ++ addr :: other :: right).Nodup)
    (hp : p ≠ some addr) (hq : q ≠ some other) :
    (heap.link addr other).Segment p (left ++ addr :: other :: right) q := by
  rw [segment_append_cons, segment_cons]
  rw [List.nodup_middle, List.nodup_cons, List.nodup_middle, List.nodup_cons] at hnodup
  simp only [List.mem_append, List.mem_cons, not_or] at hnodup
  obtain ⟨⟨haddr, hne, haddr'⟩, ⟨hother, hother'⟩, -⟩ := hnodup
  refine ⟨?_, linked_link hfirst hsecond, ?_⟩
  · exact (hleft.setNext hp haddr).setPrev hother (by simpa using hne)
  · exact (hright.setNext (by simpa using Ne.symm hne) haddr').setPrev hother' hq

/-- A segment without its last node. -/
theorem Segment.cutLast (hsegment : heap.Segment p (left ++ [addr, other]) none)
    (hnodup : (left ++ [addr, other]).Nodup) (hp : p ∉ [some addr, some other]) :
    ((heap.setNext addr none).free other).Segment p (left ++ [addr]) none := by
  have hlive : heap.Live addr := hsegment.live (by simp)
  rw [List.nodup_middle, List.nodup_cons, List.nodup_middle] at hnodup
  simp only [List.mem_append, List.mem_singleton, List.append_nil, List.nodup_cons,
    not_or] at hnodup
  obtain ⟨⟨haddr, hne⟩, hother, -⟩ := hnodup
  simp only [List.mem_cons, List.not_mem_nil, or_false, not_or] at hp
  rw [segment_append_cons] at hsegment ⊢
  have hleft := (hsegment.1.setNext (r := none) hp.1 haddr).free hp.2 hother (by simpa using hne)
  refine ⟨hleft, segment_nil.mpr ⟨?_, by simp⟩⟩
  rintro _ ⟨⟩
  rw [nextAt, map_nodes_free hne, ← nextAt, nextAt_setNext_self hlive]

/-- A segment without its first node. -/
theorem Segment.cutFirst (hsegment : heap.Segment none (addr :: other :: right) q)
    (hnodup : (addr :: other :: right).Nodup) (hq : q ∉ [some addr, some other]) :
    ((heap.setPrev other none).free addr).Segment none (other :: right) q := by
  have hlive : heap.Live other := hsegment.live (by simp)
  simp only [List.nodup_cons, List.mem_cons, not_or] at hnodup
  obtain ⟨⟨hne, haddr⟩, hother, -⟩ := hnodup
  simp only [List.mem_cons, List.not_mem_nil, or_false, not_or] at hq
  rw [segment_cons, segment_cons] at hsegment
  have hright := (hsegment.2.2.setPrev (r := none) hother hq.2).free (by simpa using Ne.symm hne)
    haddr hq.1
  refine segment_cons.mpr ⟨⟨by simp, ?_⟩, hright⟩
  rintro _ ⟨⟩
  rw [prevAt, map_nodes_free (Ne.symm hne), ← prevAt, prevAt_setPrev_self hlive]

/-- A segment without an inner node. -/
theorem Segment.unlink {middle : ℕ}
    (hsegment : heap.Segment p (left ++ addr :: middle :: other :: right) q)
    (hnodup : (left ++ addr :: middle :: other :: right).Nodup)
    (hp : p ∉ [some addr, some middle]) (hq : q ∉ [some middle, some other]) :
    ((heap.link addr other).free middle).Segment p (left ++ addr :: other :: right) q := by
  have hfirst : heap.Live addr := hsegment.live (by simp)
  have hsecond : heap.Live other := hsegment.live (by simp)
  simp only [List.mem_cons, List.not_mem_nil, or_false, not_or] at hp hq
  rw [segment_append_cons, segment_cons, segment_cons] at hsegment
  have hsub : (left ++ addr :: other :: right).Sublist (left ++ addr :: middle :: other :: right) :=
    (List.Sublist.refl left).append ((List.sublist_cons_self middle _).cons_cons addr)
  have hlinked := hsegment.1.link hsegment.2.2.2 hfirst hsecond (hnodup.sublist hsub) hp.1 hq.2
  refine hlinked.free hp.2 ?_ hq.1
  rw [List.append_cons, List.nodup_middle, List.nodup_cons, ← List.append_cons] at hnodup
  exact hnodup.1

/-- A segment with a new inner node. -/
theorem Segment.insert (hsegment : heap.Segment p (left ++ addr :: other :: right) q)
    (hnodup : (left ++ addr :: other :: right).Nodup) (hp : p ∉ [some addr, some heap.top])
    (hq : q ∉ [some heap.top, some other]) (value : α) :
    (((heap.alloc value).link addr heap.top).link heap.top other).Segment p
      (left ++ addr :: heap.top :: other :: right) q := by
  have hfirst : (heap.alloc value).Live addr := hsegment.alloc.live (by simp)
  have hsecond : (heap.alloc value).Live other := hsegment.alloc.live (by simp)
  have hnew : (heap.alloc value).Live heap.top := (segment_alloc heap value).live (by simp)
  have hfresh : heap.top ∉ left ++ addr :: other :: right := by
    intro hmem
    obtain ⟨node, hnode⟩ := Option.isSome_iff_exists.mp (hsegment.live hmem)
    exact ne_top hnode rfl
  have hnodup' : (left ++ addr :: heap.top :: other :: right).Nodup := by
    rw [List.append_cons, List.nodup_middle, ← List.append_cons]
    exact hnodup.cons hfresh
  simp only [List.mem_cons, List.not_mem_nil, or_false, not_or] at hp hq
  have halloc : (heap.alloc value).Segment p (left ++ addr :: other :: right) q := hsegment.alloc
  rw [segment_append_cons, segment_cons] at halloc
  have hlast : (heap.alloc value).Segment (some heap.top) [] none :=
    (segment_cons.mp (segment_alloc heap value)).2
  rw [List.append_cons] at hnodup' ⊢
  have hsub : (left ++ [addr, heap.top]).Sublist (left ++ [addr] ++ heap.top :: other :: right) := by
    simp
  have hjoin := halloc.1.link hlast hfirst hnew (hnodup'.sublist hsub) hp.1 (by simp)
  rw [List.append_cons, segment_append_cons] at hjoin
  rw [List.nodup_middle, List.nodup_cons] at hnodup
  simp only [List.mem_append, List.mem_cons, not_or] at hnodup hfresh
  have hright := (halloc.2.2.setNext (r := some heap.top)
    (by simpa using Ne.symm hnodup.1.2.1) hnodup.1.2.2).setPrev (r := some addr) hfresh.2.2.2 hq.1
  exact hjoin.1.link hright hnew.setNext.setPrev hsecond.setNext.setPrev hnodup' hp.2 hq.2

/-! ## Walks -/

/-- Following pointers from `p` visits `addrs` and ends with null. -/
inductive Walk (follow : ℕ → Option (Option ℕ)) : Option ℕ → List ℕ → Prop
  | stop : Walk follow none []
  | step {addr : ℕ} {p : Option ℕ} {addrs : List ℕ} (hfollow : follow addr = some p)
      (hrest : Walk follow p addrs) : Walk follow (some addr) (addr :: addrs)

theorem Walk.congr {follow follow' : ℕ → Option (Option ℕ)} (hwalk : Walk follow p addrs)
    (hsame : ∀ addr ∈ addrs, follow' addr = follow addr) : Walk follow' p addrs := by
  induction hwalk with
  | stop => exact .stop
  | step hfollow _ ih =>
      have hfirst := hsame _ List.mem_cons_self
      exact .step (hfirst.trans hfollow) (ih fun addr haddr => hsame addr (List.mem_cons_of_mem _ haddr))

theorem Walk.unique {follow : ℕ → Option (Option ℕ)} {addrs' : List ℕ} (hwalk : Walk follow p addrs)
    (hwalk' : Walk follow p addrs') : addrs = addrs' := by
  induction hwalk generalizing addrs' with
  | stop =>
      cases hwalk'
      rfl
  | step hfollow _ ih =>
      rcases hwalk' with _ | ⟨hfollow', hrest'⟩
      rw [hfollow, Option.some.injEq] at hfollow'
      subst hfollow'
      rw [ih hrest']

/-- A walk ends with null. -/
theorem Walk.last {follow : ℕ → Option (Option ℕ)} (hwalk : Walk follow p (addrs ++ [addr])) :
    follow addr = some none := by
  induction addrs generalizing p with
  | nil =>
      rcases hwalk with _ | ⟨hfollow, hrest⟩
      cases hrest
      exact hfollow
  | cons first addrs ih =>
      rcases hwalk with _ | ⟨_, hrest⟩
      exact ih hrest

theorem Walk.head? {follow : ℕ → Option (Option ℕ)} (hwalk : Walk follow p addrs) :
    p = addrs.head? := by
  cases hwalk with
  | stop => rfl
  | step => rfl

theorem Walk.isSome {follow : ℕ → Option (Option ℕ)} (hwalk : Walk follow p addrs)
    (haddr : addr ∈ addrs) : (follow addr).isSome := by
  induction hwalk with
  | stop => cases haddr
  | step hfollow _ ih =>
      rcases List.mem_cons.mp haddr with rfl | hmem
      · exact Option.isSome_of_eq_some hfollow
      · exact ih hmem

theorem Segment.walk_next (hsegment : heap.Segment p addrs none) :
    Walk heap.nextAt addrs.head? addrs := by
  induction addrs generalizing p with
  | nil => exact .stop
  | cons addr addrs ih =>
      have hrest := (segment_cons.mp hsegment).2
      have hnext := hrest.next
      rw [Option.or_none] at hnext
      exact .step hnext (ih hrest)

theorem Segment.walk_prev (hsegment : heap.Segment none addrs q) :
    Walk heap.prevAt addrs.getLast? addrs.reverse := by
  induction addrs using List.reverseRecOn generalizing q with
  | nil => exact .stop
  | append_singleton addrs addr ih =>
      have hrest := (segment_append_cons.mp hsegment).1
      have hprev := hrest.prev
      rw [Option.or_none] at hprev
      rw [List.getLast?_concat, List.reverse_concat]
      exact .step hprev (ih hrest)

/-! ## Reversal -/

/-- Exchanges the pointers of a node. -/
def flip (heap : LinkedHeap α) (addr : ℕ) : LinkedHeap α := heap.modify addr LinkedNode.flip

theorem setNext_setPrev_eq_flip (hnode : heap.nodes addr = some node) :
    (heap.setNext addr node.prev).setPrev addr node.next = heap.flip addr := by
  apply ext
  · funext other
    by_cases heq : other = addr
    · rw [heq, setPrev, setNext, flip, nodes_modify_self, nodes_modify_self, nodes_modify_self, hnode]
      rfl
    · rw [setPrev, setNext, flip, nodes_modify_of_ne heq, nodes_modify_of_ne heq,
        nodes_modify_of_ne heq]
  · rfl

def flipAll (heap : LinkedHeap α) (addrs : List ℕ) : LinkedHeap α := addrs.foldl flip heap

theorem nodes_flipAll_of_notMem (haddr : addr ∉ addrs) :
    (heap.flipAll addrs).nodes addr = heap.nodes addr := by
  induction addrs generalizing heap with
  | nil => rfl
  | cons first addrs ih =>
      rw [List.mem_cons, not_or] at haddr
      rw [flipAll, List.foldl_cons, ← flipAll, ih haddr.2, flip, nodes_modify_of_ne haddr.1]

theorem nodes_flipAll_of_mem (hnodup : addrs.Nodup) (haddr : addr ∈ addrs) :
    (heap.flipAll addrs).nodes addr = (heap.nodes addr).map LinkedNode.flip := by
  induction addrs generalizing heap with
  | nil => cases haddr
  | cons first addrs ih =>
      rw [List.nodup_cons] at hnodup
      rw [flipAll, List.foldl_cons, ← flipAll]
      by_cases hfirst : addr = first
      · rw [hfirst, nodes_flipAll_of_notMem hnodup.1, flip, nodes_modify_self]
      · have hrest := List.mem_of_ne_of_mem hfirst haddr
        rw [ih hnodup.2 hrest, flip, nodes_modify_of_ne hfirst]

/-- A list whose pointers are exchanged in every node is linked in reverse. -/
theorem Segment.reverse (hsegment : heap.Segment none addrs none)
    (hnodes : ∀ addr ∈ addrs, heap'.nodes addr = (heap.nodes addr).map LinkedNode.flip) :
    heap'.Segment none addrs.reverse none := by
  have hspine : none :: (addrs.reverse.map some ++ [none]) =
      (none :: (addrs.map some ++ [none])).reverse := by simp
  rw [Segment, hspine, List.isChain_reverse]
  refine List.IsChain.imp_of_mem_imp ?_ hsegment
  intro p q hp hq hlinked
  refine ⟨?_, ?_⟩
  · rintro addr haddr
    obtain rfl : q = some addr := haddr
    have hmem : addr ∈ addrs := by simpa using hq
    have hprev := hlinked.2 addr rfl
    rw [prevAt] at hprev
    rw [nextAt, hnodes addr hmem, Option.map_map, ← hprev]
    rfl
  · rintro addr haddr
    obtain rfl : p = some addr := haddr
    have hmem : addr ∈ addrs := by simpa using hp
    have hnext := hlinked.1 addr rfl
    rw [nextAt] at hnext
    rw [prevAt, hnodes addr hmem, Option.map_map, ← hnext]
    rfl

end LinkedHeap

end CppProjects
