import CppProjects.MemoryPool.PoolRuns

/-!
# A stack on a memory pool

`StackAlloc<T, MemoryPool<T>>` keeps its elements in nodes from a pool of its own.  A node
is the bytes of the element and a pointer to the node below.  The elements can be copied
byte by byte.
-/

namespace CppProjects

open Program LittleEndian ByteHeap MemoryPool

/-- The layout of `StackNode_<T>`. -/
structure StackNode (T : Type) where
  sizeofData : ℕ
  prevOffset : ℕ
  sizeofNode : ℕ
  encode : T → List Byte
  decode : List Byte → T
  /-- `T()`. -/
  zero : T
  length_encode : ∀ x, (encode x).length = sizeofData
  decode_encode : ∀ x, decode (encode x) = x
  data_fits : sizeofData ≤ prevOffset
  prev_fits : prevOffset + 8 ≤ sizeofNode
  dvd_sizeofNode : 8 ∣ sizeofNode

namespace StackAlloc

variable {T : Type} (node : StackNode T)

/-- `rebind` leaves the block size at its default. -/
def allocator : PoolType where
  sizeofSlot := node.sizeofNode
  blockSize := 4096
  dvd_sizeofSlot := node.dvd_sizeofNode
  sizeofSlot_pos := Nat.lt_of_lt_of_le (Nat.succ_pos _) node.prev_fits

structure Stack where
  store : Store
  head : ℕ

abbrev M := Program Failure Stack

/-- An operation of the allocator. -/
def onAllocator {α : Type} (program : MemoryPool.M α) : M α :=
  ExceptT.mk fun s => (program.run.run s.store).map fun outcome =>
    (outcome.1, { s with store := outcome.2 })

def self : M Stack := get

def setHead (p : ℕ) : M Unit := modify fun s => { s with head := p }

def empty : M Bool := do
  let this ← self
  return this.head = 0

/-- The bytes of `Node()`, as far as the pointer reaches. -/
def nodeBytes : List Byte :=
  node.encode node.zero ++ List.replicate (node.prevOffset - node.sizeofData) 0 ++ toBytes 8 0

def push (os : Option ℕ) (element : T) : M Unit := do
  let newNode ← onAllocator (allocate (allocator node) os)
  onAllocator (construct newNode (nodeBytes node))
  onAllocator (writeBytes newNode (node.encode element))
  let this ← self
  onAllocator (MemoryPool.store (newNode + node.prevOffset) this.head)
  setHead newNode

/-- `allocator_.destroy(p)` and `allocator_.deallocate(p, 1)`. -/
def discard (p : ℕ) (left : List Byte) : M Unit := do
  onAllocator (destroy p left)
  onAllocator (deallocate p)

def pop (left : List Byte) : M T := do
  let this ← self
  let data ← onAllocator (readBytes this.head node.sizeofData)
  let tmp ← onAllocator (load (this.head + node.prevOffset))
  discard this.head left
  setHead tmp
  return node.decode data

def top : M T := do
  let this ← self
  let data ← onAllocator (readBytes this.head node.sizeofData)
  return node.decode data

/-- One turn of the loop in `clear`. -/
def clearNode (left : List Byte) (curr : ℕ) : M (Option ℕ) := do
  if curr ≠ 0 then
    let tmp ← onAllocator (load (curr + node.prevOffset))
    discard curr left
    return some tmp
  else return none

/-- There are `2 ^ 64` addresses, so that a loop over nodes that takes more turns never
ends. -/
def turns : ℕ := 2 ^ 64 + 1

def clear (left : List Byte) : M Unit := do
  let this ← self
  let _ ← loop (clearNode node left) turns this.head
  setHead 0

/-- `~StackAlloc()`, and then the destructor of the allocator. -/
def destruct (left : List Byte) : M Unit := do
  clear node left
  onAllocator (MemoryPool.destruct turns)

/-! ## The nodes of a stack -/

/-- From `head` the nodes are linked, and they hold the elements. -/
structure Linked (bytes : ℕ → Byte) (head : ℕ) (nodes : List ℕ) (elements : List T) : Prop where
  chain : Chain (fun p => wordAt bytes (p + node.prevOffset)) head nodes
  data : nodes.map (fun p => slice bytes p node.sizeofData) = elements.map node.encode

/-- The slots that the stack holds are its nodes. -/
structure Holds (s : Stack) (nodes free : List ℕ) (elements : List T) : Prop where
  sound : Sound (allocator node) s.store nodes free
  linked : Linked node s.store.heap.bytes s.head nodes elements

variable {node} {s : Stack} {nodes free : List ℕ} {elements : List T} {x : T} {p q : ℕ}
  {left : List Byte} {os : Option ℕ} {α : Type}

theorem returns_onAllocator {program : MemoryPool.M α} {value : α} {store : Store}
    (h : Returns program s.store value store) :
    Returns (onAllocator program) s value { s with store := store } := by
  change Option.map _ (program.run.run s.store) = _
  rw [h]
  rfl

theorem throws_onAllocator {program : MemoryPool.M α} {failure : Failure} {store : Store}
    (h : Throws program s.store failure store) :
    Throws (onAllocator program) s failure { s with store := store } := by
  change Option.map _ (program.run.run s.store) = _
  rw [h]
  rfl

theorem returns_self (s : Stack) : Returns self s s s := returns_get s

theorem returns_setHead (p : ℕ) (s : Stack) : Returns (setHead p) s () { s with head := p } := rfl

/-- Nodes that keep their bytes keep their links and elements. -/
theorem Linked.congr {bytes bytes' : ℕ → Byte} {head : ℕ}
    (hlinked : Linked node bytes head nodes elements)
    (hbytes : ∀ q ∈ nodes, ∀ i < node.sizeofNode, bytes' (q + i) = bytes (q + i)) :
    Linked node bytes' head nodes elements := by
  have hdata := node.data_fits
  have hprev := node.prev_fits
  constructor
  · refine hlinked.chain.congr fun q hq => wordAt_congr fun i hi => ?_
    rw [add_assoc]
    exact hbytes q hq _ (by omega)
  · rw [← hlinked.data]
    exact List.map_congr_left fun q hq => slice_congr fun i hi => hbytes q hq i (by omega)

/-- A node in front of the others. -/
theorem Linked.cons {bytes : ℕ → Byte} {head : ℕ} (hlinked : Linked node bytes head nodes elements)
    (hne : p ≠ 0) (hprev : wordAt bytes (p + node.prevOffset) = head)
    (hdata : slice bytes p node.sizeofData = node.encode x) :
    Linked node bytes p (p :: nodes) (x :: elements) := by
  subst hprev
  exact ⟨⟨rfl, hne, hlinked.chain⟩, by rw [List.map_cons, List.map_cons, hdata, hlinked.data]⟩

@[simp]
theorem length_nodeBytes (node : StackNode T) : (nodeBytes node).length = node.prevOffset + 8 := by
  have := node.data_fits
  simp only [nodeBytes, List.length_append, node.length_encode, List.length_replicate, length_toBytes]
  omega

/-- A node has room in a slot, and two of them have room in a block. -/
abbrev Fits (node : StackNode T) : Prop := 2 * node.sizeofNode ≤ 4096

/-- A write into a node that is not linked yet, by one of the operations of `push`. -/
theorem linked_of_moves {w w' : World} {events : List Event} {head : ℕ} (hfits : Fits node)
    (hsound : Sound (allocator node) w.store w.held w.free)
    (hlinked : Linked node w.store.heap.bytes head nodes elements)
    (hmoves : Moves (allocator node) w events w') (hheld : nodes ⊆ w.held) (hp : p ∉ nodes)
    (hevents : ∀ event ∈ events, event.slot = p) :
    Linked node w'.store.heap.bytes head nodes elements :=
  hlinked.congr fun _ hq _ hi => hmoves.bytes_eq hsound hfits (hheld hq)
    (fun event hmem heq => hp ((hevents event hmem).symm.trans heq ▸ hq)) hi

/-- `push` puts a node in front, or throws and leaves the stack as it was. -/
theorem Holds.push (hholds : Holds node s nodes free elements) (hfits : Fits node)
    (hanswer : ∀ start ∈ os, Answer (allocator node) s.store.heap start) (x : T) :
    (∃ s' p free', Returns (push node os x) s () s' ∧ Holds node s' (p :: nodes) free' (x :: elements)) ∨
    os = none ∧ Throws (push node os x) s .badAlloc s := by
  have hprev := node.prev_fits
  have hdata := node.data_fits
  rcases allocate_move hholds.sound hanswer hfits with ⟨p, w, hreturns, hmove⟩ | ⟨hnone, hthrows⟩
  · left
    have hheld : w.held = p :: nodes := hmove.held_eq
    have hp : p ∈ w.held := by simp [hheld]
    have hsound := hholds.sound.move hmove hfits
    have hnotin : p ∉ nodes := by
      have := (List.nodup_append'.mp hsound.slots.nodup).1
      rw [hheld] at this
      exact (List.nodup_cons.mp this).1
    have hroom : 0 + (nodeBytes node).length ≤ (allocator node).sizeofSlot := by
      rw [length_nodeBytes, zero_add]
      exact hprev
    have hroom' : 0 + (node.encode x).length ≤ (allocator node).sizeofSlot := by
      rw [node.length_encode, zero_add]
      exact hdata.trans ((Nat.le_add_right _ _).trans hprev)
    have hroom'' : node.prevOffset + (toBytes 8 s.head).length ≤ (allocator node).sizeofSlot := by
      rw [length_toBytes]
      exact hprev
    -- the three writes into the new node
    obtain ⟨hconstruct, hmove₁⟩ := writeBytes_move hsound hp hroom
    have hsound₁ := hsound.move hmove₁ hfits
    obtain ⟨hwrite, hmove₂⟩ := writeBytes_move hsound₁ hp hroom'
    have hsound₂ := hsound₁.move hmove₂ hfits
    obtain ⟨hstore, hmove₃⟩ := writeBytes_move hsound₂ hp hroom''
    have hmoves := Moves.cons hmove (.cons hmove₁ (.cons hmove₂ (.one hmove₃)))
    have hlinked := linked_of_moves hfits hholds.sound hholds.linked hmoves (fun _ h => h) hnotin
      (by simp [Event.slot])
    have hhead : s.head < 2 ^ 64 := by
      rcases hholds.linked.chain.head_mem_or with hnull | hmem
      · exact hnull ▸ by norm_num
      · exact (hholds.sound.lt_of_mem (List.mem_append_left _ hmem)).1
    have hslice : slice (w.store.patch (p + 0) (nodeBytes node) |>.patch (p + 0) (node.encode x)
        |>.patch (p + node.prevOffset) (toBytes 8 s.head)).heap.bytes p node.sizeofData =
        node.encode x := by
      refine Eq.trans (slice_patch_of_apart (.inr (Nat.add_le_add_left hdata p))) ?_
      rw [← node.length_encode x]
      exact slice_patch_self _ p _
    exact ⟨⟨_, p⟩, p, w.free, (returns_onAllocator hreturns).bind
      ((returns_onAllocator hconstruct).bind ((returns_onAllocator hwrite).bind
        ((returns_self _).bind ((returns_onAllocator hstore).bind (returns_setHead p _))))),
      hheld ▸ hsound₂.move hmove₃ hfits,
      hlinked.cons (hsound.lt_of_mem (List.mem_append_left _ hp)).2.ne' (wordAt_patch_self hhead) hslice⟩
  · exact .inr ⟨hnone, (throws_onAllocator hthrows).bind⟩

/-- A node goes back to the pool; the others are still linked. -/
theorem returns_discard (hfits : Fits node)
    (hsound : Sound (allocator node) s.store (p :: nodes) free) {head : ℕ}
    (hlinked : Linked node s.store.heap.bytes head nodes elements)
    (hleft : left.length ≤ node.sizeofNode) :
    ∃ store, Returns (discard p left) s () { s with store := store } ∧
      Sound (allocator node) store nodes (p :: free) ∧
      Linked node store.heap.bytes head nodes elements ∧
      store.heap.regions = s.store.heap.regions := by
  have hp : p ∈ p :: nodes := List.mem_cons_self
  have hnotin : p ∉ nodes := (List.nodup_cons.mp (List.nodup_append'.mp hsound.slots.nodup).1).1
  have hroom : 0 + left.length ≤ (allocator node).sizeofSlot := by
    rw [zero_add]
    exact hleft
  obtain ⟨hwrite, hmove₁⟩ := writeBytes_move hsound hp hroom
  have hsound₁ := hsound.move hmove₁ hfits
  obtain ⟨w, hreturns, hmove₂⟩ := deallocate_move hsound₁ hp
  have hsound₂ := hsound₁.move hmove₂ hfits
  have hkept := linked_of_moves hfits hsound hlinked (.cons hmove₁ (.one hmove₂))
    (List.subset_cons_self p nodes) hnotin (by simp [Event.slot])
  refine ⟨w.store, (returns_onAllocator hwrite).bind (returns_onAllocator hreturns), ?_, hkept, ?_⟩
  · cases hmove₂ with
    | release => rwa [List.erase_cons_head] at hsound₂
  · cases hmove₂ with
    | release => rfl

/-- The element in the node at `head`. -/
theorem returns_data (hsound : Sound (allocator node) s.store (p :: nodes) free)
    (hlinked : Linked node s.store.heap.bytes q (p :: nodes) (x :: elements)) :
    Returns (onAllocator (readBytes q node.sizeofData)) s (node.encode x) s := by
  have hdata := node.data_fits
  have hprev := node.prev_fits
  have hbacked := (hsound.backed (List.mem_append_left _ List.mem_cons_self)).within le_rfl
    (m := node.sizeofData) (Nat.add_le_add_left (by dsimp only [allocator]; omega) p)
  have hslice : slice s.store.heap.bytes p node.sizeofData = node.encode x :=
    (List.cons.inj hlinked.data).1
  have hread := returns_readBytes hbacked
  rw [hslice] at hread
  obtain rfl := hlinked.chain.1
  exact returns_onAllocator hread

/-- The pointer to the node below the one at `head`. -/
theorem returns_prev (hsound : Sound (allocator node) s.store (p :: nodes) free)
    (hlinked : Linked node s.store.heap.bytes q (p :: nodes) elements) :
    Returns (onAllocator (load (q + node.prevOffset))) s
      (wordAt s.store.heap.bytes (p + node.prevOffset)) s := by
  have hprev := node.prev_fits
  have hbacked := (hsound.backed (List.mem_append_left _ List.mem_cons_self)).within
    (Nat.le_add_right p node.prevOffset) (m := 8) (by dsimp only [allocator]; omega)
  obtain rfl := hlinked.chain.1
  exact returns_onAllocator (returns_load hbacked)

theorem Linked.tail {bytes : ℕ → Byte} {head : ℕ}
    (hlinked : Linked node bytes head (p :: nodes) (x :: elements)) :
    Linked node bytes (wordAt bytes (p + node.prevOffset)) nodes elements :=
  ⟨hlinked.chain.2.2, (List.cons.inj hlinked.data).2⟩

theorem Holds.top (hholds : Holds node s (p :: nodes) free (x :: elements)) :
    Returns (top node) s x s := by
  have htop : Returns (StackAlloc.top node) s (node.decode (node.encode x)) s :=
    (returns_self s).bind ((returns_data hholds.sound hholds.linked).bind (returns_pure _ _))
  rwa [node.decode_encode] at htop

theorem Holds.pop (hholds : Holds node s (p :: nodes) free (x :: elements)) (hfits : Fits node)
    (hleft : left.length ≤ node.sizeofNode) :
    ∃ s', Returns (pop node left) s x s' ∧ Holds node s' nodes (p :: free) elements := by
  obtain ⟨store, hdiscard, hsound, hlinked, -⟩ :=
    returns_discard hfits hholds.sound hholds.linked.tail hleft
  obtain rfl : s.head = p := hholds.linked.chain.1
  have hpop : Returns (StackAlloc.pop node left) s (node.decode (node.encode x))
      ⟨store, wordAt s.store.heap.bytes (s.head + node.prevOffset)⟩ :=
    (returns_self s).bind ((returns_data hholds.sound hholds.linked).bind
      ((returns_prev hholds.sound hholds.linked).bind
        (hdiscard.bind ((returns_setHead _ _).bind (returns_pure _ _)))))
  rw [node.decode_encode] at hpop
  exact ⟨_, hpop, hsound, hlinked⟩

/-- The loop of `clear` gives the nodes back one after another. -/
theorem returns_loop_clearNode (hfits : Fits node) (hleft : left.length ≤ node.sizeofNode)
    {fuel curr : ℕ} (hsound : Sound (allocator node) s.store nodes free)
    (hlinked : Linked node s.store.heap.bytes curr nodes elements) (hfuel : nodes.length < fuel) :
    ∃ store free', Returns (loop (clearNode node left) fuel curr) s 0 { s with store := store } ∧
      Sound (allocator node) store [] free' ∧ store.heap.regions = s.store.heap.regions := by
  obtain ⟨fuel, rfl⟩ : ∃ rest, fuel = rest + 1 := ⟨fuel - 1, by omega⟩
  induction nodes generalizing s free elements curr fuel with
  | nil =>
      obtain rfl : curr = 0 := hlinked.chain
      exact ⟨s.store, free, Returns.loop_exit (returns_pure none _), hsound, rfl⟩
  | cons p nodes ih =>
      rw [List.length_cons] at hfuel
      obtain ⟨fuel, rfl⟩ : ∃ rest, fuel = rest + 1 := ⟨fuel - 1, by omega⟩
      obtain ⟨x, rest, rfl⟩ : ∃ x rest, elements = x :: rest := by
        cases elements with
        | nil => cases hlinked.data
        | cons x rest => exact ⟨x, rest, rfl⟩
      obtain ⟨store, hdiscard, hsound', hlinked', hregions⟩ :=
        returns_discard hfits hsound hlinked.tail hleft
      have hbody : Returns (clearNode node left curr) s
          (some (wordAt s.store.heap.bytes (p + node.prevOffset))) { s with store := store } := by
        have hload := returns_prev hsound hlinked
        obtain ⟨rfl, hne, -⟩ := hlinked.chain
        rw [clearNode, if_pos hne]
        exact hload.bind (hdiscard.bind (returns_pure _ _))
      obtain ⟨store', free', hloop, hend, hregions'⟩ :=
        ih (s := { s with store := store }) hsound' hlinked' fuel (by omega)
      exact ⟨store', free', hbody.loop_next hloop, hend, hregions'.trans hregions⟩

/-- Slots that do not overlap are fewer than the addresses. -/
theorem length_lt_turns (hsound : Sound (allocator node) s.store nodes free) : nodes.length < turns := by
  have hlength := length_mul_le_of_apart (a := 0) (b := 2 ^ 64)
    (List.pairwise_append.mp hsound.slots.apart).1 (by
      intro p hp
      obtain ⟨region, hmem, hlo, hhi⟩ := hsound.slots.inside p (List.mem_append_left _ hp)
      have := hsound.blocks.end_lt region hmem
      omega)
  have := Nat.le_mul_of_pos_right nodes.length (allocator node).sizeofSlot_pos
  rw [turns]
  omega

theorem Holds.clear (hholds : Holds node s nodes free elements) (hfits : Fits node)
    (hleft : left.length ≤ node.sizeofNode) :
    ∃ s' free', Returns (clear node left) s () s' ∧ Holds node s' [] free' ([] : List T) ∧
      s'.store.heap.regions = s.store.heap.regions := by
  obtain ⟨store, free', hloop, hsound, hregions⟩ := returns_loop_clearNode hfits hleft hholds.sound
    hholds.linked (length_lt_turns hholds.sound)
  exact ⟨_, free', (returns_self s).bind (hloop.bind (returns_setHead 0 _)), ⟨hsound, rfl, rfl⟩,
    hregions⟩

/-! ## Runs -/

inductive Action (T : Type)
  | push (os : Option ℕ) (element : T)
  | pop (left : List Byte)
  | top
  | empty
  | clear (left : List Byte)

inductive Output (T : Type)
  | done
  | badAlloc
  | element (x : T)
  | isEmpty (answer : Bool)

variable (node)

def call : Action T → M (Output T)
  | .push os element => do
      push node os element
      return .done
  | .pop left => do
      let x ← pop node left
      return .element x
  | .top => do
      let x ← top node
      return .element x
  | .empty => do
      let answer ← empty
      return .isEmpty answer
  | .clear left => do
      clear node left
      return .done

/-- Nothing is taken from an empty stack, and memory is what is free. -/
def Allowed (s : Stack) : Action T → Prop
  | .push os _ => ∀ start ∈ os, Answer (allocator node) s.store.heap start
  | .pop left => s.head ≠ 0 ∧ left.length ≤ node.sizeofNode
  | .top => s.head ≠ 0
  | .empty => True
  | .clear left => left.length ≤ node.sizeofNode

instance (s : Stack) (a : Action T) : Decidable (Allowed node s a) := by
  cases a <;> unfold Allowed <;> infer_instance

/-- What a call returns and leaves. -/
def outcome (s : Stack) (a : Action T) : Option (Output T × Stack) :=
  match (call node a).run.run s with
  | some (.ok output, s') => some (output, s')
  | some (.error _, s') => some (.badAlloc, s')
  | none => none

def system : TransitionSystem Stack (Action T) where
  initial s := s.store.pool = MemoryPool.new ∧ s.store.heap.regions = [] ∧ s.head = 0
  step s a := if Allowed node s a then (outcome node s a).map Prod.snd else none

def report (s : Stack) (a : Action T) : List (Action T × Output T) :=
  ((outcome node s a).map fun result => (a, result.1)).toList

/-- The calls and outputs of a stack that holds the elements now.  A `push` may be
refused where the operating system has no memory. -/
inductive StackRun : List (Action T × Output T) → List T → Prop
  | new : StackRun [] []
  | push {told : List (Action T × Output T)} {elements : List T} (os : Option ℕ) (x : T)
      (hrun : StackRun told elements) : StackRun (told ++ [(.push os x, .done)]) (x :: elements)
  | refused {told : List (Action T × Output T)} {elements : List T} (x : T)
      (hrun : StackRun told elements) : StackRun (told ++ [(.push none x, .badAlloc)]) elements
  | pop {told : List (Action T × Output T)} {elements : List T} {x : T} (left : List Byte)
      (hrun : StackRun told (x :: elements)) : StackRun (told ++ [(.pop left, .element x)]) elements
  | top {told : List (Action T × Output T)} {elements : List T} {x : T}
      (hrun : StackRun told (x :: elements)) : StackRun (told ++ [(.top, .element x)]) (x :: elements)
  | empty {told : List (Action T × Output T)} {elements : List T} (hrun : StackRun told elements) :
      StackRun (told ++ [(.empty, .isEmpty elements.isEmpty)]) elements
  | clear {told : List (Action T × Output T)} {elements : List T} (left : List Byte)
      (hrun : StackRun told elements) : StackRun (told ++ [(.clear left, .done)]) []

variable {node} {a : Action T}

theorem outcome_of_returns {output : Output T} {s' : Stack}
    (h : Returns (call node a) s output s') : outcome node s a = some (output, s') := by
  rw [outcome, show (call node a).run.run s = some (.ok output, s') from h]

theorem outcome_of_throws {s' : Stack} (h : Throws (call node a) s .badAlloc s') :
    outcome node s a = some (.badAlloc, s') := by
  rw [outcome, show (call node a).run.run s = some (.error .badAlloc, s') from h]

/-- A stack that is not empty has a first node. -/
theorem Holds.exists_cons (hholds : Holds node s nodes free elements) (hhead : s.head ≠ 0) :
    ∃ p nodes' x elements', nodes = p :: nodes' ∧ elements = x :: elements' := by
  obtain ⟨rest, rfl, -⟩ := hholds.linked.chain.exists_cons hhead
  cases elements with
  | nil => cases hholds.linked.data
  | cons x elements' => exact ⟨_, rest, x, elements', rfl, rfl⟩

theorem Holds.head_eq_zero_iff (hholds : Holds node s nodes free elements) :
    s.head = 0 ↔ elements = [] := by
  constructor
  · intro hhead
    have hnodes : nodes = [] := (hhead ▸ hholds.linked.chain).eq_nil
    have hdata := hholds.linked.data
    rw [hnodes] at hdata
    exact List.map_eq_nil_iff.mp hdata.symm
  · intro hempty
    by_contra hhead
    obtain ⟨_, _, x, elements', -, hcons⟩ := hholds.exists_cons hhead
    cases hempty.symm.trans hcons

/-- A call does what it would do to the list of the elements. -/
theorem Holds.call (hholds : Holds node s nodes free elements) (hfits : Fits node)
    (hallowed : Allowed node s a) :
    ∃ output s' nodes' free' elements', outcome node s a = some (output, s') ∧
      Holds node s' nodes' free' elements' ∧
      ∀ told, StackRun told elements → StackRun (told ++ [(a, output)]) elements' := by
  cases a with
  | push os x =>
      rcases hholds.push hfits hallowed x with ⟨s', p, free', hpush, hholds'⟩ | ⟨rfl, hthrows⟩
      · exact ⟨.done, s', _, free', _, outcome_of_returns (hpush.bind (returns_pure _ _)), hholds',
          fun _ hrun => hrun.push os x⟩
      · exact ⟨.badAlloc, s, nodes, free, elements, outcome_of_throws hthrows.bind, hholds,
          fun _ hrun => hrun.refused x⟩
  | pop left =>
      obtain ⟨p, nodes', x, elements', rfl, rfl⟩ := hholds.exists_cons hallowed.1
      obtain ⟨s', hpop, hholds'⟩ := hholds.pop hfits hallowed.2
      exact ⟨.element x, s', nodes', _, elements',
        outcome_of_returns (hpop.bind (returns_pure _ _)), hholds', fun _ hrun => hrun.pop left⟩
  | top =>
      obtain ⟨p, nodes', x, elements', rfl, rfl⟩ := hholds.exists_cons hallowed
      exact ⟨.element x, s, _, free, _, outcome_of_returns (hholds.top.bind (returns_pure _ _)),
        hholds, fun _ hrun => hrun.top⟩
  | empty =>
      have hempty : elements.isEmpty = decide (s.head = 0) := by
        rw [Bool.eq_iff_iff, List.isEmpty_iff, decide_eq_true_iff, hholds.head_eq_zero_iff]
      have hreturns : Returns (StackAlloc.call node .empty) s
          (.isEmpty (decide (s.head = 0))) s :=
        ((returns_self s).bind (returns_pure _ _)).bind (returns_pure _ _)
      exact ⟨_, s, nodes, free, elements, outcome_of_returns hreturns, hholds,
        fun _ hrun => hempty ▸ hrun.empty⟩
  | clear left =>
      obtain ⟨s', free', hclear, hholds', -⟩ := hholds.clear hfits hallowed
      exact ⟨.done, s', [], free', [], outcome_of_returns (hclear.bind (returns_pure _ _)), hholds',
        fun _ hrun => hrun.clear left⟩

theorem holds_initial (hinitial : (system node).initial s) :
    Holds node s [] [] ([] : List T) :=
  ⟨sound_initial (s := ⟨s.store, []⟩) ⟨hinitial.1, hinitial.2.1, rfl⟩, hinitial.2.2, rfl⟩

theorem exists_holds (hfits : Fits node) {visited : List (Stack × Action T)}
    (hrun : (system node).Run visited s) :
    ∃ nodes free elements, Holds node s nodes free elements ∧
      StackRun (TransitionSystem.history (report node) visited) elements := by
  refine hrun.history_invariant (R := fun told s => ∃ nodes free elements,
    Holds node s nodes free elements ∧ StackRun told elements) ?_ ?_
  · exact fun s hinitial => ⟨[], [], [], holds_initial hinitial, .new⟩
  · rintro told s a s' ⟨nodes, free, elements, hholds, hrun⟩ hstep
    simp only [system] at hstep
    split_ifs at hstep with hallowed
    obtain ⟨output, s'', nodes', free', elements', houtcome, hholds', hnext⟩ :=
      hholds.call hfits hallowed
    rw [houtcome] at hstep
    obtain rfl : s'' = s' := Option.some.inj hstep
    refine ⟨nodes', free', elements', hholds', ?_⟩
    rw [report, houtcome]
    exact hnext told hrun

/-- An empty stack, in a memory of zeros. -/
def atFirst : Stack := ⟨⟨⟨fun _ => 0, []⟩, MemoryPool.new⟩, 0⟩

end StackAlloc

end CppProjects
