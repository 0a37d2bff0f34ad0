import Mathlib.Tactic

/-!
# Heaps of nodes and blocks

Nodes point to blocks, and blocks hold nodes.  The roots are the nodes that are
variables.  An address is not used twice.
-/

namespace CppProjects

/-- The blocks a node points to. -/
class Pointers (ν : Type) where
  pointers : ν → List ℕ

/-- The nodes a block holds. -/
class Children (β : Type) where
  children : β → List ℕ

export Pointers (pointers)
export Children (children)

@[ext]
structure NodeHeap (ν β : Type) where
  nodes : ℕ → Option ν
  blocks : ℕ → Option β
  top : ℕ
  roots : List ℕ

namespace NodeHeap

variable {ν β : Type}

/-! ## Edits -/

def empty : NodeHeap ν β := ⟨fun _ => none, fun _ => none, 0, []⟩

/-- A new node at `heap.top`. -/
def newNode (heap : NodeHeap ν β) (node : ν) : NodeHeap ν β :=
  { heap with nodes := Function.update heap.nodes heap.top (some node), top := heap.top + 1 }

/-- A new block at `heap.top`. -/
def newBlock (heap : NodeHeap ν β) (block : β) : NodeHeap ν β :=
  { heap with blocks := Function.update heap.blocks heap.top (some block), top := heap.top + 1 }

/-- A new node that is a variable. -/
def newRoot (heap : NodeHeap ν β) (node : ν) : NodeHeap ν β :=
  { heap.newNode node with roots := heap.top :: heap.roots }

/-- New nodes at `heap.top` and behind it. -/
def newNodes (heap : NodeHeap ν β) : List ν → NodeHeap ν β
  | [] => heap
  | node :: nodes => (heap.newNode node).newNodes nodes

def setNode (heap : NodeHeap ν β) (addr : ℕ) (node : ν) : NodeHeap ν β :=
  { heap with nodes := Function.update heap.nodes addr (some node) }

def setBlock (heap : NodeHeap ν β) (p : ℕ) (block : β) : NodeHeap ν β :=
  { heap with blocks := Function.update heap.blocks p (some block) }

/-- A node that is there is written to. -/
def write (heap : NodeHeap ν β) (addr : ℕ) (node : ν) : Option (NodeHeap ν β) :=
  if (heap.nodes addr).isSome then some (heap.setNode addr node) else none

/-- Some nodes are gone. -/
def discard (heap : NodeHeap ν β) (addrs : List ℕ) : NodeHeap ν β :=
  { heap with nodes := fun addr => if addr ∈ addrs then none else heap.nodes addr }

/-- A block is gone, and the nodes it holds with it. -/
def drop [Children β] (heap : NodeHeap ν β) (p : ℕ) (block : β) : NodeHeap ν β :=
  { heap.discard (children block) with blocks := Function.update heap.blocks p none }

variable {heap heap' : NodeHeap ν β} {addr other p q : ℕ} {node : ν} {block : β} {addrs : List ℕ}

@[simp]
theorem nodes_newNode_top : (heap.newNode node).nodes heap.top = some node := Function.update_self ..

theorem nodes_newNode_of_ne (hne : addr ≠ heap.top) :
    (heap.newNode node).nodes addr = heap.nodes addr := Function.update_of_ne hne ..

@[simp]
theorem nodes_setNode_self : (heap.setNode addr node).nodes addr = some node := Function.update_self ..

theorem nodes_setNode_of_ne (hne : addr ≠ other) :
    (heap.setNode other node).nodes addr = heap.nodes addr := Function.update_of_ne hne ..

@[simp]
theorem blocks_newBlock_top : (heap.newBlock block).blocks heap.top = some block :=
  Function.update_self ..

theorem blocks_newBlock_of_ne (hne : p ≠ heap.top) :
    (heap.newBlock block).blocks p = heap.blocks p := Function.update_of_ne hne ..

@[simp]
theorem blocks_setBlock_self : (heap.setBlock p block).blocks p = some block := Function.update_self ..

theorem blocks_setBlock_of_ne (hne : q ≠ p) : (heap.setBlock p block).blocks q = heap.blocks q :=
  Function.update_of_ne hne ..

theorem setNode_setNode {node' : ν} : (heap.setNode addr node).setNode addr node' = heap.setNode addr node' := by
  rw [setNode, setNode, setNode, Function.update_idem]

theorem newBlock_setNode :
    (heap.setNode addr node).newBlock block = (heap.newBlock block).setNode addr node := rfl

theorem nodes_discard_of_mem (hmem : addr ∈ addrs) : (heap.discard addrs).nodes addr = none := if_pos hmem

theorem nodes_discard_of_notMem (hmem : addr ∉ addrs) :
    (heap.discard addrs).nodes addr = heap.nodes addr := if_neg hmem

theorem nodes_of_discard (hnode : (heap.discard addrs).nodes addr = some node) :
    addr ∉ addrs ∧ heap.nodes addr = some node := by
  by_cases hmem : addr ∈ addrs
  · rw [nodes_discard_of_mem hmem] at hnode
    cases hnode
  · exact ⟨hmem, (nodes_discard_of_notMem hmem).symm.trans hnode⟩

theorem write_eq_some (hwrite : heap.write addr node = some heap') :
    (heap.nodes addr).isSome ∧ heap' = heap.setNode addr node := by
  obtain ⟨hlive, heq⟩ := Option.ite_none_right_eq_some.mp hwrite
  exact ⟨hlive, (Option.some.inj heq).symm⟩

section Drop

variable [Children β]

@[simp]
theorem blocks_drop_self : (heap.drop p block).blocks p = none := Function.update_self ..

theorem blocks_drop_of_ne (hne : q ≠ p) : (heap.drop p block).blocks q = heap.blocks q :=
  Function.update_of_ne hne ..

theorem blocks_of_drop {block' : β} (hblock : (heap.drop p block).blocks q = some block') :
    q ≠ p ∧ heap.blocks q = some block' := by
  by_cases heq : q = p
  · rw [heq, blocks_drop_self] at hblock
    cases hblock
  · exact ⟨heq, (blocks_drop_of_ne heq).symm.trans hblock⟩

end Drop

section NewNodes

variable {nodes : List ν}

@[simp]
theorem top_newNodes : (heap.newNodes nodes).top = heap.top + nodes.length := by
  induction nodes generalizing heap with
  | nil => rfl
  | cons node nodes ih =>
      rw [newNodes, ih, List.length_cons, Nat.add_comm nodes.length, ← Nat.add_assoc]
      rfl

@[simp]
theorem blocks_newNodes : (heap.newNodes nodes).blocks = heap.blocks := by
  induction nodes generalizing heap with
  | nil => rfl
  | cons node nodes ih => exact ih

@[simp]
theorem roots_newNodes : (heap.newNodes nodes).roots = heap.roots := by
  induction nodes generalizing heap with
  | nil => rfl
  | cons node nodes ih => exact ih

theorem nodes_newNodes_of_lt (hlt : addr < heap.top) :
    (heap.newNodes nodes).nodes addr = heap.nodes addr := by
  induction nodes generalizing heap with
  | nil => rfl
  | cons node nodes ih =>
      rw [newNodes, ih (Nat.lt_succ_of_lt hlt), nodes_newNode_of_ne hlt.ne]

theorem nodes_newNodes_add {i : ℕ} (hi : i < nodes.length) :
    (heap.newNodes nodes).nodes (heap.top + i) = nodes[i]? := by
  induction nodes generalizing heap i with
  | nil => exact absurd hi (Nat.not_lt_zero _)
  | cons node nodes ih =>
      cases i with
      | zero =>
          rw [newNodes, Nat.add_zero, nodes_newNodes_of_lt (Nat.lt_succ_self _), nodes_newNode_top]
          rfl
      | succ i =>
          rw [newNodes, List.getElem?_cons_succ, ← ih (Nat.lt_of_succ_lt_succ hi), Nat.add_comm i,
            ← Nat.add_assoc]
          rfl

theorem nodes_newNodes_of_le (hle : heap.top + nodes.length ≤ addr) :
    (heap.newNodes nodes).nodes addr = heap.nodes addr := by
  induction nodes generalizing heap with
  | nil => rfl
  | cons node nodes ih =>
      rw [List.length_cons] at hle
      have hne : addr ≠ heap.top := by omega
      have hrest : (heap.newNode node).top + nodes.length ≤ addr := by
        change heap.top + 1 + nodes.length ≤ addr
        omega
      rw [newNodes, ih hrest, nodes_newNode_of_ne hne]

/-- A node behind new ones is one of them or was there before. -/
theorem nodes_of_newNodes (hnode : (heap.newNodes nodes).nodes addr = some node) :
    (∃ i, addr = heap.top + i ∧ nodes[i]? = some node) ∨
      ((addr < heap.top ∨ heap.top + nodes.length ≤ addr) ∧ heap.nodes addr = some node) := by
  rcases Nat.lt_or_ge addr heap.top with hlt | hge
  · exact .inr ⟨.inl hlt, (nodes_newNodes_of_lt hlt).symm.trans hnode⟩
  · obtain ⟨i, rfl⟩ := Nat.exists_eq_add_of_le hge
    rcases Nat.lt_or_ge i nodes.length with hi | hi
    · exact .inl ⟨i, rfl, (nodes_newNodes_add hi).symm.trans hnode⟩
    · have hle := Nat.add_le_add_left hi heap.top
      exact .inr ⟨.inr hle, (nodes_newNodes_of_le hle).symm.trans hnode⟩

end NewNodes

/-- A visit of several nodes, each with an outcome of its own. -/
theorem mapM_eq_pure_map {m : Type → Type} [Monad m] [LawfulMonad m] {α γ : Type} {f : α → m γ}
    {g : α → γ} {l : List α} (heq : ∀ x ∈ l, f x = pure (g x)) : l.mapM f = pure (l.map g) := by
  induction l with
  | nil => exact List.mapM_nil
  | cons x l ih =>
      have hrest := ih fun y hmem => heq y (List.mem_cons_of_mem _ hmem)
      rw [List.mapM_cons, heq x List.mem_cons_self, hrest]
      simp

theorem mapM_congr {m : Type → Type} [Monad m] [LawfulMonad m] {α γ : Type} {f g : α → m γ} {l : List α}
    (heq : ∀ x ∈ l, f x = g x) : l.mapM f = l.mapM g := by
  induction l with
  | nil => rw [List.mapM_nil, List.mapM_nil]
  | cons x l ih =>
      rw [List.mapM_cons, List.mapM_cons, heq x List.mem_cons_self,
        ih fun y hmem => heq y (List.mem_cons_of_mem _ hmem)]

/-! ## Predicates that hold of every node -/

/-- `P` holds of every node. -/
def Every (heap : NodeHeap ν β) (P : ν → Prop) : Prop := ∀ addr node, heap.nodes addr = some node → P node

variable {P : ν → Prop}

theorem Every.newNode (hevery : heap.Every P) (hnode : P node) : (heap.newNode node).Every P := by
  intro addr other hother
  by_cases heq : addr = heap.top
  · rw [heq, nodes_newNode_top, Option.some.injEq] at hother
    exact hother ▸ hnode
  · exact hevery addr other ((nodes_newNode_of_ne heq).symm.trans hother)

theorem Every.newNodes {nodes : List ν} (hevery : heap.Every P) (hnodes : ∀ node ∈ nodes, P node) :
    (heap.newNodes nodes).Every P := by
  intro addr node hnode
  rcases nodes_of_newNodes hnode with ⟨i, -, hget⟩ | ⟨-, hold⟩
  · exact hnodes node (List.mem_of_getElem? hget)
  · exact hevery addr node hold

theorem Every.setNode (hevery : heap.Every P) (hnode : P node) : (heap.setNode addr node).Every P := by
  intro addr' other hother
  by_cases heq : addr' = addr
  · rw [heq, nodes_setNode_self, Option.some.injEq] at hother
    exact hother ▸ hnode
  · exact hevery addr' other ((nodes_setNode_of_ne heq).symm.trans hother)

theorem Every.write (hevery : heap.Every P) (hnode : P node)
    (hwrite : heap.write addr node = some heap') : heap'.Every P := by
  obtain ⟨-, rfl⟩ := write_eq_some hwrite
  exact hevery.setNode hnode

theorem Every.discard (hevery : heap.Every P) : (heap.discard addrs).Every P :=
  fun addr node hnode => hevery addr node (nodes_of_discard hnode).2

theorem isSome_newNode (hlive : (heap.nodes addr).isSome) : ((heap.newNode node).nodes addr).isSome := by
  by_cases heq : addr = heap.top
  · rw [heq, nodes_newNode_top]
    rfl
  · rwa [nodes_newNode_of_ne heq]

theorem isSome_setNode (hlive : (heap.nodes addr).isSome) :
    ((heap.setNode other node).nodes addr).isSome := by
  by_cases heq : addr = other
  · rw [heq, nodes_setNode_self]
    rfl
  · rwa [nodes_setNode_of_ne heq]

/-! ## Which node points where -/

section Points

variable [Pointers ν]

def Points (heap : NodeHeap ν β) (addr p : ℕ) : Prop :=
  ∃ node, heap.nodes addr = some node ∧ p ∈ pointers node

theorem points_newNode (hpoints : (heap.newNode node).Points addr p) :
    (addr = heap.top ∧ p ∈ pointers node) ∨ (addr ≠ heap.top ∧ heap.Points addr p) := by
  obtain ⟨other, hother, hmem⟩ := hpoints
  by_cases heq : addr = heap.top
  · rw [heq, nodes_newNode_top, Option.some.injEq] at hother
    exact .inl ⟨heq, hother ▸ hmem⟩
  · exact .inr ⟨heq, other, (nodes_newNode_of_ne heq).symm.trans hother, hmem⟩

theorem points_setNode (hpoints : (heap.setNode other node).Points addr p) :
    (addr = other ∧ p ∈ pointers node) ∨ (addr ≠ other ∧ heap.Points addr p) := by
  obtain ⟨node', hnode', hmem⟩ := hpoints
  by_cases heq : addr = other
  · rw [heq, nodes_setNode_self, Option.some.injEq] at hnode'
    exact .inl ⟨heq, hnode' ▸ hmem⟩
  · exact .inr ⟨heq, node', (nodes_setNode_of_ne heq).symm.trans hnode', hmem⟩

theorem points_discard (hpoints : (heap.discard addrs).Points addr p) :
    addr ∉ addrs ∧ heap.Points addr p := by
  obtain ⟨node, hnode, hmem⟩ := hpoints
  obtain ⟨hlive, hnode⟩ := nodes_of_discard hnode
  exact ⟨hlive, node, hnode, hmem⟩

end Points

section Contains

variable [Children β]

def Contains (heap : NodeHeap ν β) (p addr : ℕ) : Prop :=
  ∃ block, heap.blocks p = some block ∧ addr ∈ children block

theorem contains_setBlock (hcontains : (heap.setBlock q block).Contains p addr) :
    (p = q ∧ addr ∈ children block) ∨ (p ≠ q ∧ heap.Contains p addr) := by
  obtain ⟨block', hblock', hmem⟩ := hcontains
  by_cases heq : p = q
  · rw [heq, blocks_setBlock_self, Option.some.injEq] at hblock'
    exact .inl ⟨heq, hblock' ▸ hmem⟩
  · exact .inr ⟨heq, block', (blocks_setBlock_of_ne heq).symm.trans hblock', hmem⟩

theorem contains_drop (hcontains : (heap.drop p block).Contains q addr) :
    q ≠ p ∧ heap.Contains q addr := by
  obtain ⟨block', hblock', hmem⟩ := hcontains
  obtain ⟨hne, hblock'⟩ := blocks_of_drop hblock'
  exact ⟨hne, block', hblock', hmem⟩

end Contains

/-! ## Well-scoped heaps -/

section Scoped

variable [Pointers ν] [Children β]

/-- Addresses are used once, and a node is in one block or is a variable. -/
structure Scoped (heap : NodeHeap ν β) : Prop where
  nodes_lt : ∀ {addr node}, heap.nodes addr = some node → addr < heap.top
  blocks_lt : ∀ {p block}, heap.blocks p = some block → p < heap.top
  pointers_lt : ∀ {addr p}, heap.Points addr p → p < heap.top
  live : ∀ {p addr}, heap.Contains p addr → (heap.nodes addr).isSome
  nodup : ∀ {p block}, heap.blocks p = some block → (children block).Nodup
  apart : ∀ {p q addr}, heap.Contains p addr → heap.Contains q addr → p = q
  roots_live : ∀ addr ∈ heap.roots, (heap.nodes addr).isSome
  roots_apart : ∀ addr ∈ heap.roots, ∀ p, ¬ heap.Contains p addr

theorem scoped_empty : (empty : NodeHeap ν β).Scoped where
  nodes_lt := fun h => by cases h
  blocks_lt := fun h => by cases h
  pointers_lt := by
    rintro _ _ ⟨_, ⟨⟩, _⟩
  live := by
    rintro _ _ ⟨_, ⟨⟩, _⟩
  nodup := fun h => by cases h
  apart := by
    rintro _ _ _ ⟨_, ⟨⟩, _⟩
  roots_live := fun _ h => by cases h
  roots_apart := fun _ h => by cases h

theorem Scoped.contains_lt (hscoped : heap.Scoped) (hcontains : heap.Contains p addr) :
    addr < heap.top := by
  obtain ⟨node, hnode⟩ := Option.isSome_iff_exists.mp (hscoped.live hcontains)
  exact hscoped.nodes_lt hnode

theorem Scoped.newNode (hscoped : heap.Scoped) (hpointers : ∀ p ∈ pointers node, p < heap.top) :
    (heap.newNode node).Scoped where
  nodes_lt := by
    intro addr other hother
    by_cases heq : addr = heap.top
    · exact heq ▸ Nat.lt_succ_self _
    · exact Nat.lt_succ_of_lt (hscoped.nodes_lt ((nodes_newNode_of_ne heq).symm.trans hother))
  blocks_lt := fun hblock => Nat.lt_succ_of_lt (hscoped.blocks_lt hblock)
  pointers_lt := by
    intro addr p hpoints
    rcases points_newNode hpoints with ⟨-, hmem⟩ | ⟨-, hold⟩
    · exact Nat.lt_succ_of_lt (hpointers p hmem)
    · exact Nat.lt_succ_of_lt (hscoped.pointers_lt hold)
  live := fun hcontains => isSome_newNode (hscoped.live hcontains)
  nodup := hscoped.nodup
  apart := hscoped.apart
  roots_live := fun addr hmem => isSome_newNode (hscoped.roots_live addr hmem)
  roots_apart := hscoped.roots_apart

theorem Scoped.newNodes (hscoped : heap.Scoped) {nodes : List ν}
    (hpointers : ∀ node ∈ nodes, ∀ p ∈ pointers node, p < heap.top) : (heap.newNodes nodes).Scoped := by
  induction nodes generalizing heap with
  | nil => exact hscoped
  | cons node nodes ih =>
      apply ih (hscoped.newNode (hpointers node List.mem_cons_self))
      exact fun other hmem p hp =>
        Nat.lt_succ_of_lt (hpointers other (List.mem_cons_of_mem _ hmem) p hp)

theorem Scoped.newRoot (hscoped : heap.Scoped) (hpointers : ∀ p ∈ pointers node, p < heap.top) :
    (heap.newRoot node).Scoped where
  nodes_lt := (hscoped.newNode hpointers).nodes_lt
  blocks_lt := (hscoped.newNode hpointers).blocks_lt
  pointers_lt := (hscoped.newNode hpointers).pointers_lt
  live := (hscoped.newNode hpointers).live
  nodup := hscoped.nodup
  apart := hscoped.apart
  roots_live := by
    intro addr hmem
    rcases List.mem_cons.mp hmem with rfl | hold
    · exact Option.isSome_of_eq_some nodes_newNode_top
    · exact isSome_newNode (hscoped.roots_live addr hold)
  roots_apart := by
    intro addr hmem p hcontains
    rcases List.mem_cons.mp hmem with rfl | hold
    · exact absurd (hscoped.contains_lt hcontains) (Nat.lt_irrefl _)
    · exact hscoped.roots_apart addr hold p hcontains

theorem Scoped.setNode (hscoped : heap.Scoped) (hlive : (heap.nodes addr).isSome)
    (hpointers : ∀ p ∈ pointers node, p < heap.top) : (heap.setNode addr node).Scoped where
  nodes_lt := by
    intro addr' other hother
    by_cases heq : addr' = addr
    · obtain ⟨old, hold⟩ := Option.isSome_iff_exists.mp hlive
      subst heq
      exact hscoped.nodes_lt hold
    · exact hscoped.nodes_lt ((nodes_setNode_of_ne heq).symm.trans hother)
  blocks_lt := hscoped.blocks_lt
  pointers_lt := by
    intro addr' p hpoints
    rcases points_setNode hpoints with ⟨-, hmem⟩ | ⟨-, hold⟩
    · exact hpointers p hmem
    · exact hscoped.pointers_lt hold
  live := fun hcontains => isSome_setNode (hscoped.live hcontains)
  nodup := hscoped.nodup
  apart := hscoped.apart
  roots_live := fun addr hmem => isSome_setNode (hscoped.roots_live addr hmem)
  roots_apart := hscoped.roots_apart

/-- The nodes of a block that replaces another, or of a new one, are in no other
block. -/
theorem Scoped.setBlock (hscoped : heap.Scoped) (hp : p < heap.top) (hnodup : (children block).Nodup)
    (hlive : ∀ addr ∈ children block, (heap.nodes addr).isSome)
    (hapart : ∀ addr ∈ children block, ∀ q, heap.Contains q addr → q = p)
    (hroots : ∀ addr ∈ heap.roots, addr ∉ children block) : (heap.setBlock p block).Scoped where
  nodes_lt := hscoped.nodes_lt
  blocks_lt := by
    intro q block' hblock'
    by_cases heq : q = p
    · exact heq ▸ hp
    · exact hscoped.blocks_lt ((blocks_setBlock_of_ne heq).symm.trans hblock')
  pointers_lt := hscoped.pointers_lt
  live := by
    intro q addr hcontains
    rcases contains_setBlock hcontains with ⟨-, hmem⟩ | ⟨-, hold⟩
    · exact hlive addr hmem
    · exact hscoped.live hold
  nodup := by
    intro q block' hblock'
    by_cases heq : q = p
    · rw [heq, blocks_setBlock_self, Option.some.injEq] at hblock'
      exact hblock' ▸ hnodup
    · exact hscoped.nodup ((blocks_setBlock_of_ne heq).symm.trans hblock')
  apart := by
    intro q q' addr hfirst hsecond
    rcases contains_setBlock hfirst with ⟨rfl, hmem⟩ | ⟨hne, hold⟩
    · rcases contains_setBlock hsecond with ⟨rfl, -⟩ | ⟨-, hold'⟩
      · rfl
      · exact (hapart addr hmem q' hold').symm
    · rcases contains_setBlock hsecond with ⟨rfl, hmem⟩ | ⟨-, hold'⟩
      · exact hapart addr hmem q hold
      · exact hscoped.apart hold hold'
  roots_live := hscoped.roots_live
  roots_apart := by
    intro addr hroot q hcontains
    rcases contains_setBlock hcontains with ⟨-, hmem⟩ | ⟨-, hold⟩
    · exact hroots addr hroot hmem
    · exact hscoped.roots_apart addr hroot q hold

/-- Room for a block whose nodes are in no block yet. -/
theorem Scoped.newBlock (hscoped : heap.Scoped) (hnodup : (children block).Nodup)
    (hlive : ∀ addr ∈ children block, (heap.nodes addr).isSome)
    (hapart : ∀ addr ∈ children block, ∀ q, ¬ heap.Contains q addr)
    (hroots : ∀ addr ∈ heap.roots, addr ∉ children block) : (heap.newBlock block).Scoped := by
  have hroom : ({ heap with top := heap.top + 1 } : NodeHeap ν β).Scoped :=
    ⟨fun h => Nat.lt_succ_of_lt (hscoped.nodes_lt h), fun h => Nat.lt_succ_of_lt (hscoped.blocks_lt h),
      fun h => Nat.lt_succ_of_lt (hscoped.pointers_lt h), hscoped.live, hscoped.nodup, hscoped.apart,
      hscoped.roots_live, hscoped.roots_apart⟩
  exact hroom.setBlock (Nat.lt_succ_self _) hnodup hlive
    (fun addr hmem q hcontains => absurd hcontains (hapart addr hmem q)) hroots

theorem Scoped.discard (hscoped : heap.Scoped) (hapart : ∀ addr ∈ addrs, ∀ p, ¬ heap.Contains p addr)
    (hroots : ∀ addr ∈ heap.roots, addr ∉ addrs) : (heap.discard addrs).Scoped where
  nodes_lt := fun hnode => hscoped.nodes_lt (nodes_of_discard hnode).2
  blocks_lt := hscoped.blocks_lt
  pointers_lt := fun hpoints => hscoped.pointers_lt (points_discard hpoints).2
  live := by
    intro p addr hcontains
    rw [nodes_discard_of_notMem fun hmem => hapart addr hmem p hcontains]
    exact hscoped.live hcontains
  nodup := hscoped.nodup
  apart := hscoped.apart
  roots_live := by
    intro addr hmem
    rw [nodes_discard_of_notMem (hroots addr hmem)]
    exact hscoped.roots_live addr hmem
  roots_apart := hscoped.roots_apart

theorem Scoped.drop (hscoped : heap.Scoped) (hblock : heap.blocks p = some block) :
    (heap.drop p block).Scoped := by
  have hkept : ∀ {q addr}, (heap.drop p block).Contains q addr → addr ∉ children block := by
    intro q addr hcontains hmem
    obtain ⟨hne, hold⟩ := contains_drop hcontains
    exact hne (hscoped.apart hold ⟨block, hblock, hmem⟩)
  have hroots : ∀ addr ∈ heap.roots, addr ∉ children block := fun addr hroot hmem =>
    hscoped.roots_apart addr hroot p ⟨block, hblock, hmem⟩
  exact
    { nodes_lt := fun hnode => hscoped.nodes_lt (nodes_of_discard hnode).2
      blocks_lt := fun hblock' => hscoped.blocks_lt (blocks_of_drop hblock').2
      pointers_lt := fun hpoints => hscoped.pointers_lt (points_discard hpoints).2
      live := by
        intro q addr hcontains
        have hnode : (heap.drop p block).nodes addr = heap.nodes addr :=
          nodes_discard_of_notMem (hkept hcontains)
        rw [hnode]
        exact hscoped.live (contains_drop hcontains).2
      nodup := fun hblock' => hscoped.nodup (blocks_of_drop hblock').2
      apart := fun hfirst hsecond => hscoped.apart (contains_drop hfirst).2 (contains_drop hsecond).2
      roots_live := by
        intro addr hmem
        have hnode : (heap.drop p block).nodes addr = heap.nodes addr :=
          nodes_discard_of_notMem (hroots addr hmem)
        rw [hnode]
        exact hscoped.roots_live addr hmem
      roots_apart := fun addr hmem q hcontains =>
        hscoped.roots_apart addr hmem q (contains_drop hcontains).2 }

end Scoped

end NodeHeap

end CppProjects
