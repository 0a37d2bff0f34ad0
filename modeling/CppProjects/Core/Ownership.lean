import CppProjects.Core.NodeHeap

/-!
# Ownership in heaps of nodes and blocks

Where one node points to each block, the nodes stand in trees that have nothing in common.
A step that changes one of the trees leaves the others alone.
-/

namespace CppProjects

namespace NodeHeap

variable {ν β : Type} [Pointers ν] [Children β] {heap heap' heap'' : NodeHeap ν β} {a b c p q r : ℕ}
  {node new : ν} {block old : β} {loose loose' changed changed' : Set ℕ} {addrs : List ℕ}

/-- One node points to each block, and no pointer dangles. -/
structure SoleOwners (heap : NodeHeap ν β) : Prop where
  present : ∀ a p, heap.Points a p → (heap.blocks p).isSome
  owner : ∀ p, (heap.blocks p).isSome → ∃! a, heap.Points a p

omit [Children β] in
theorem SoleOwners.unique (howners : heap.SoleOwners) (hpoints : heap.Points a p)
    (hpoints' : heap.Points b p) : a = b :=
  (howners.owner p (howners.present a p hpoints)).unique hpoints hpoints'

/-- `c` is in a block that `a` points to. -/
def Child (heap : NodeHeap ν β) (a c : ℕ) : Prop := ∃ p, heap.Points a p ∧ heap.Contains p c

/-- `b` is `a`, or below it. -/
def InTree (heap : NodeHeap ν β) (a b : ℕ) : Prop := Relation.ReflTransGen heap.Child a b

/-! ## Owned heaps -/

/-- Every block has its owner, but the loose ones have none.  Nodes come after the nodes they
are below. -/
structure Owned (heap : NodeHeap ν β) (loose : Set ℕ) : Prop where
  isScoped : heap.Scoped
  single : ∀ {a node}, heap.nodes a = some node → (pointers node).Nodup
  unique : ∀ {a b p}, heap.Points a p → heap.Points b p → a = b
  present : ∀ {a p}, heap.Points a p → (heap.blocks p).isSome
  owner : ∀ {p}, (heap.blocks p).isSome → p ∉ loose → ∃ a, heap.Points a p
  loose_present : ∀ {p}, p ∈ loose → (heap.blocks p).isSome
  unowned : ∀ {a p}, p ∈ loose → ¬ heap.Points a p
  order : ∀ {a p c}, heap.Points a p → heap.Contains p c → a < c

theorem owned_empty : (empty : NodeHeap ν β).Owned ∅ where
  isScoped := scoped_empty
  single := fun h => by cases h
  unique := by
    rintro _ _ _ ⟨_, ⟨⟩, _⟩
  present := by
    rintro _ _ ⟨_, ⟨⟩, _⟩
  owner := fun h => by cases h
  loose_present := fun h => absurd h (Set.notMem_empty _)
  unowned := fun h => absurd h (Set.notMem_empty _)
  order := by
    rintro _ _ _ ⟨_, ⟨⟩, _⟩

theorem Owned.soleOwners (howned : heap.Owned ∅) : heap.SoleOwners where
  present := fun _ _ hpoints => howned.present hpoints
  owner := by
    intro p hp
    obtain ⟨a, ha⟩ := howned.owner hp (Set.notMem_empty p)
    exact ⟨a, ha, fun b hb => howned.unique hb ha⟩

omit [Children β] in
theorem Points.isSome (hpoints : heap.Points a p) : (heap.nodes a).isSome := by
  obtain ⟨node, hnode, -⟩ := hpoints
  exact Option.isSome_of_eq_some hnode

omit [Children β] in
theorem Points.mem (hpoints : heap.Points a p) (hnode : heap.nodes a = some node) : p ∈ pointers node := by
  obtain ⟨node', hnode', hmem⟩ := hpoints
  obtain rfl := Option.some.inj (hnode.symm.trans hnode')
  exact hmem

theorem Owned.child_lt (howned : heap.Owned loose) (hchild : heap.Child a c) : a < c := by
  obtain ⟨p, hpoints, hcontains⟩ := hchild
  exact howned.order hpoints hcontains

/-- A node is below one node directly. -/
theorem Owned.parent_unique (howned : heap.Owned loose) (hchild : heap.Child a c)
    (hchild' : heap.Child b c) : a = b := by
  obtain ⟨p, hpoints, hcontains⟩ := hchild
  obtain ⟨q, hpoints', hcontains'⟩ := hchild'
  obtain rfl := howned.isScoped.apart hcontains hcontains'
  exact howned.unique hpoints hpoints'

theorem Owned.inTree_le (howned : heap.Owned loose) (hbelow : heap.InTree a b) : a ≤ b := by
  induction hbelow with
  | refl => exact Nat.le_refl a
  | tail _ hchild ih => exact ih.trans (howned.child_lt hchild).le

theorem Owned.inTree_isSome (howned : heap.Owned loose) (hbelow : heap.InTree a b)
    (ha : (heap.nodes a).isSome) : (heap.nodes b).isSome := by
  cases hbelow with
  | refl => exact ha
  | tail _ hchild =>
      obtain ⟨p, -, hcontains⟩ := hchild
      exact howned.isScoped.live hcontains

/-- A variable is below no other node. -/
theorem Owned.eq_of_inTree_root (howned : heap.Owned loose) (hroot : r ∈ heap.roots)
    (hbelow : heap.InTree a r) : a = r := by
  cases hbelow with
  | refl => rfl
  | tail _ hchild =>
      obtain ⟨p, -, hcontains⟩ := hchild
      exact absurd hcontains (howned.isScoped.roots_apart r hroot p)

/-- Of two trees with a common node, one is in the other. -/
theorem Owned.inTree_total (howned : heap.Owned loose) (hbelow : heap.InTree a c)
    (hbelow' : heap.InTree b c) : heap.InTree a b ∨ heap.InTree b a := by
  have hunique : Relator.RightUnique (Function.swap heap.Child) :=
    fun _ _ _ hchild hchild' => howned.parent_unique hchild hchild'
  rcases Relation.ReflTransGen.total_of_right_unique hunique (Relation.reflTransGen_swap.mpr hbelow)
    (Relation.reflTransGen_swap.mpr hbelow') with h | h
  · exact .inr (Relation.reflTransGen_swap.mp h)
  · exact .inl (Relation.reflTransGen_swap.mp h)

/-- The tree of a variable holds the whole way to its nodes. -/
theorem Owned.inTree_parent (howned : heap.Owned loose) (hroot : r ∈ heap.roots)
    (hchild : heap.Child a c) (hbelow : heap.InTree r c) : heap.InTree r a := by
  cases hbelow with
  | refl =>
      obtain ⟨p, -, hcontains⟩ := hchild
      exact absurd hcontains (howned.isScoped.roots_apart _ hroot p)
  | tail hbefore hchild' =>
      obtain rfl := howned.parent_unique hchild hchild'
      exact hbefore

/-! ## What stays the same -/

/-- The tree of `r` is as it was. -/
structure Same (heap heap' : NodeHeap ν β) (r : ℕ) : Prop where
  nodes : ∀ b, heap.InTree r b → heap'.nodes b = heap.nodes b
  blocks : ∀ b p, heap.InTree r b → heap.Points b p → heap'.blocks p = heap.blocks p

theorem Same.refl (heap : NodeHeap ν β) (r : ℕ) : Same heap heap r := ⟨fun _ _ => rfl, fun _ _ _ _ => rfl⟩

theorem Same.points_iff (hsame : Same heap heap' r) (hbelow : heap.InTree r b) :
    heap'.Points b p ↔ heap.Points b p := by
  rw [Points, Points, hsame.nodes b hbelow]

theorem Same.child_iff (hsame : Same heap heap' r) (hbelow : heap.InTree r b) :
    heap'.Child b c ↔ heap.Child b c := by
  refine exists_congr fun p => ?_
  rw [hsame.points_iff hbelow]
  refine and_congr_right fun hpoints => ?_
  rw [Contains, Contains, hsame.blocks b p hbelow hpoints]

theorem Same.inTree_iff (hsame : Same heap heap' r) : heap'.InTree r b ↔ heap.InTree r b := by
  constructor
  · intro hbelow
    induction hbelow with
    | refl => exact .refl
    | tail _ hchild ih => exact ih.tail ((hsame.child_iff ih).mp hchild)
  · intro hbelow
    induction hbelow with
    | refl => exact .refl
    | tail hbefore hchild ih => exact ih.tail ((hsame.child_iff hbefore).mpr hchild)

theorem Same.trans (hsame : Same heap heap' r) (hsame' : Same heap' heap'' r) : Same heap heap'' r where
  nodes b hbelow := (hsame'.nodes b (hsame.inTree_iff.mpr hbelow)).trans (hsame.nodes b hbelow)
  blocks b p hbelow hpoints := (hsame'.blocks b p (hsame.inTree_iff.mpr hbelow)
    ((hsame.points_iff hbelow).mpr hpoints)).trans (hsame.blocks b p hbelow hpoints)

/-- Outside of the tree of `a` everything is as it was. -/
structure Frame (heap heap' : NodeHeap ν β) (a : ℕ) : Prop where
  nodes : ∀ b, (heap.nodes b).isSome → ¬ heap.InTree a b → heap'.nodes b = heap.nodes b
  blocks : ∀ b p, heap.Points b p → ¬ heap.InTree a b → heap'.blocks p = heap.blocks p

/-- What is done in one tree is not seen from the variable of another one. -/
theorem Frame.same (hframe : Frame heap heap' a) (howned : heap.Owned loose) (hroot : r ∈ heap.roots)
    (hout : ¬ heap.InTree r a) : Same heap heap' r := by
  have hnot : ∀ b, heap.InTree r b → ¬ heap.InTree a b := by
    intro b hbelow hbelow'
    rcases howned.inTree_total hbelow hbelow' with h | h
    · exact hout h
    · obtain rfl := howned.eq_of_inTree_root hroot h
      exact hout .refl
  exact ⟨fun b hbelow => hframe.nodes b
      (howned.inTree_isSome hbelow (howned.isScoped.roots_live r hroot)) (hnot b hbelow),
    fun b p hbelow hpoints => hframe.blocks b p hpoints (hnot b hbelow)⟩

/-- A change of `a` and of what it points to. -/
theorem frame_of_ne (hnodes : ∀ b, (heap.nodes b).isSome → b ≠ a → heap'.nodes b = heap.nodes b)
    (hblocks : ∀ b p, heap.Points b p → b ≠ a → heap'.blocks p = heap.blocks p) : Frame heap heap' a where
  nodes b hlive hout := hnodes b hlive fun heq => hout (heq ▸ .refl)
  blocks b p hpoints hout := hblocks b p hpoints fun heq => hout (heq ▸ .refl)

/-! ## What only gets smaller -/

/-- Nothing is new, and only what is below the nodes in `changed` is not as it was. -/
structure Shrinks (heap heap' : NodeHeap ν β) (changed : Set ℕ) : Prop where
  top : heap'.top = heap.top
  roots : heap'.roots = heap.roots
  live : ∀ {b}, (heap'.nodes b).isSome → (heap.nodes b).isSome
  points : ∀ {b p}, heap'.Points b p → heap.Points b p
  contains : ∀ {p c}, heap'.Contains p c → heap.Contains p c
  nodes : ∀ b, (∀ a ∈ changed, ¬ heap.InTree a b) → heap'.nodes b = heap.nodes b
  blocks : ∀ b p, heap.Points b p → (∀ a ∈ changed, ¬ heap.InTree a b) → heap'.blocks p = heap.blocks p

theorem Shrinks.refl (heap : NodeHeap ν β) (changed : Set ℕ) : Shrinks heap heap changed where
  top := rfl
  roots := rfl
  live := id
  points := id
  contains := id
  nodes := fun _ _ => rfl
  blocks := fun _ _ _ _ => rfl

theorem Shrinks.inTree (hshrinks : Shrinks heap heap' changed) (hbelow : heap'.InTree a b) :
    heap.InTree a b := by
  induction hbelow with
  | refl => exact .refl
  | tail _ hchild ih =>
      obtain ⟨p, hpoints, hcontains⟩ := hchild
      exact ih.tail ⟨p, hshrinks.points hpoints, hshrinks.contains hcontains⟩

theorem Shrinks.points_of (hshrinks : Shrinks heap heap' changed) (hpoints : heap.Points b p)
    (hout : ∀ a ∈ changed, ¬ heap.InTree a b) : heap'.Points b p := by
  rw [Points, hshrinks.nodes b hout]
  exact hpoints

theorem Shrinks.child_of (hshrinks : Shrinks heap heap' changed) (hchild : heap.Child b c)
    (hout : ∀ a ∈ changed, ¬ heap.InTree a b) : heap'.Child b c := by
  obtain ⟨p, hpoints, hcontains⟩ := hchild
  refine ⟨p, hshrinks.points_of hpoints hout, ?_⟩
  rw [Contains, hshrinks.blocks b p hpoints hout]
  exact hcontains

/-- A tree that has nothing in common with the changed ones. -/
theorem Shrinks.inTree_of (hshrinks : Shrinks heap heap' changed) (hbelow : heap.InTree r b)
    (hout : ∀ b, heap.InTree r b → ∀ a ∈ changed, ¬ heap.InTree a b) : heap'.InTree r b := by
  induction hbelow with
  | refl => exact .refl
  | tail hbefore hchild ih => exact ih.tail (hshrinks.child_of hchild (hout _ hbefore))

theorem Shrinks.trans (hshrinks : Shrinks heap heap' changed) (hshrinks' : Shrinks heap' heap'' changed') :
    Shrinks heap heap'' (changed ∪ changed') where
  top := hshrinks'.top.trans hshrinks.top
  roots := hshrinks'.roots.trans hshrinks.roots
  live := fun hlive => hshrinks.live (hshrinks'.live hlive)
  points := fun hpoints => hshrinks.points (hshrinks'.points hpoints)
  contains := fun hcontains => hshrinks.contains (hshrinks'.contains hcontains)
  nodes := by
    intro b hout
    have hleft := hshrinks.nodes b fun a ha => hout a (.inl ha)
    have hright := hshrinks'.nodes b fun a ha hbelow => hout a (.inr ha) (hshrinks.inTree hbelow)
    exact hright.trans hleft
  blocks := by
    intro b p hpoints hout
    have hleft : ∀ a ∈ changed, ¬ heap.InTree a b := fun a ha => hout a (.inl ha)
    have hright := hshrinks'.blocks b p (hshrinks.points_of hpoints hleft) fun a ha hbelow =>
      hout a (.inr ha) (hshrinks.inTree hbelow)
    exact hright.trans (hshrinks.blocks b p hpoints hleft)

/-- The changed nodes are below others. -/
theorem Shrinks.mono (hshrinks : Shrinks heap heap' changed)
    (hbelow : ∀ b ∈ changed, ∃ a ∈ changed', heap.InTree a b) : Shrinks heap heap' changed' := by
  have hout : ∀ {b}, (∀ a ∈ changed', ¬ heap.InTree a b) → ∀ a ∈ changed, ¬ heap.InTree a b := by
    intro b hnot a ha hin
    obtain ⟨above, habove, habove'⟩ := hbelow a ha
    exact hnot above habove (habove'.trans hin)
  exact
    { hshrinks with
      nodes := fun b hnot => hshrinks.nodes b (hout hnot)
      blocks := fun b p hpoints hnot => hshrinks.blocks b p hpoints (hout hnot) }

theorem Shrinks.frame (hshrinks : Shrinks heap heap' {a}) : Frame heap heap' a where
  nodes b _ hout := hshrinks.nodes b fun _ ha => ha ▸ hout
  blocks b p hpoints hout := hshrinks.blocks b p hpoints fun _ ha => ha ▸ hout

/-- Two nodes directly below the same one have no node in common. -/
theorem Owned.not_inTree_sibling (howned : heap.Owned loose) (hchild : heap.Child a b)
    (hchild' : heap.Child a c) (hne : b ≠ c) : ¬ heap.InTree b c := by
  intro hbelow
  cases hbelow with
  | refl => exact hne rfl
  | tail hbefore hlast =>
      obtain rfl := howned.parent_unique hchild' hlast
      exact Nat.lt_irrefl _ ((howned.child_lt hchild).trans_le (howned.inTree_le hbefore))

/-- A node is not below what is directly below it. -/
theorem Owned.not_inTree_child (howned : heap.Owned loose) (hchild : heap.Child a c) : ¬ heap.InTree c a :=
  fun hbelow => Nat.lt_irrefl _ ((howned.child_lt hchild).trans_le (howned.inTree_le hbelow))

/-! ## Edits -/

/-- The pointers of a node may be dropped, and point to loose blocks. -/
theorem Owned.setNode (howned : heap.Owned loose) (hnode : heap.nodes a = some node)
    (hnodup : (pointers new).Nodup) (hfrom : ∀ p ∈ pointers new, p ∈ pointers node ∨ p ∈ loose)
    (horder : ∀ p ∈ pointers new, p ∈ loose → ∀ c, heap.Contains p c → a < c)
    (hloose : ∀ p, p ∈ loose' ↔ (p ∈ loose ∨ p ∈ pointers node) ∧ p ∉ pointers new) :
    (heap.setNode a new).Owned loose' where
  isScoped := by
    refine howned.isScoped.setNode (Option.isSome_of_eq_some hnode) fun p hp => ?_
    rcases hfrom p hp with hold | hfree
    · exact howned.isScoped.pointers_lt ⟨node, hnode, hold⟩
    · obtain ⟨block, hblock⟩ := Option.isSome_iff_exists.mp (howned.loose_present hfree)
      exact howned.isScoped.blocks_lt hblock
  single := by
    intro b other hother
    by_cases heq : b = a
    · rw [heq, nodes_setNode_self, Option.some.injEq] at hother
      exact hother ▸ hnodup
    · exact howned.single ((nodes_setNode_of_ne heq).symm.trans hother)
  unique := by
    -- what `a` points to now was its own, or nobody's
    have hother : ∀ {b p}, b ≠ a → heap.Points b p → p ∉ pointers new := by
      intro b p hne hpoints hmem
      rcases hfrom p hmem with hold | hfree
      · exact hne (howned.unique hpoints ⟨node, hnode, hold⟩)
      · exact howned.unowned hfree hpoints
    intro b b' p hpoints hpoints'
    rcases points_setNode hpoints with ⟨rfl, hmem⟩ | ⟨hne, hold⟩
    · rcases points_setNode hpoints' with ⟨rfl, -⟩ | ⟨hne', hold'⟩
      · rfl
      · exact absurd hmem (hother hne' hold')
    · rcases points_setNode hpoints' with ⟨rfl, hmem'⟩ | ⟨-, hold'⟩
      · exact absurd hmem' (hother hne hold)
      · exact howned.unique hold hold'
  present := by
    intro b p hpoints
    rcases points_setNode hpoints with ⟨-, hmem⟩ | ⟨-, hold⟩
    · rcases hfrom p hmem with hold | hfree
      · exact howned.present ⟨node, hnode, hold⟩
      · exact howned.loose_present hfree
    · exact howned.present hold
  owner := by
    intro p hp hkept
    by_cases hmem : p ∈ pointers new
    · exact ⟨a, new, nodes_setNode_self, hmem⟩
    · rw [hloose, not_and_not_right] at hkept
      have hnot : p ∉ loose ∧ p ∉ pointers node := by
        rw [← not_or]
        exact fun h => hmem (hkept h)
      obtain ⟨b, hpoints⟩ := howned.owner hp hnot.1
      have hne : b ≠ a := by
        rintro rfl
        exact hnot.2 (hpoints.mem hnode)
      obtain ⟨other, hother, hin⟩ := hpoints
      exact ⟨b, other, (nodes_setNode_of_ne hne).trans hother, hin⟩
  loose_present := by
    intro p hp
    rcases ((hloose p).mp hp).1 with hfree | hold
    · exact howned.loose_present hfree
    · exact howned.present ⟨node, hnode, hold⟩
  unowned := by
    intro b p hp hpoints
    obtain ⟨hfree, hnot⟩ := (hloose p).mp hp
    rcases points_setNode hpoints with ⟨-, hmem⟩ | ⟨hne, hold⟩
    · exact hnot hmem
    · rcases hfree with hfree | hin
      · exact howned.unowned hfree hold
      · exact hne (howned.unique hold ⟨node, hnode, hin⟩)
  order := by
    intro b p c hpoints hcontains
    rcases points_setNode hpoints with ⟨rfl, hmem⟩ | ⟨-, hold⟩
    · rcases hfrom p hmem with hold | hfree
      · exact howned.order ⟨node, hnode, hold⟩ hcontains
      · exact horder p hmem hfree c hcontains
    · exact howned.order hold hcontains

/-- A loose block may go, with nodes that point to nothing. -/
theorem Owned.drop (howned : heap.Owned loose) (hp : p ∈ loose) (hblock : heap.blocks p = some block)
    (hempty : ∀ c ∈ children block, ∀ q, ¬ heap.Points c q) :
    (heap.drop p block).Owned (loose \ {p}) := by
  have hkept : ∀ {a q}, (heap.drop p block).Points a q ↔ heap.Points a q := by
    intro a q
    refine ⟨fun hpoints => (points_discard hpoints).2, fun hpoints => ?_⟩
    have hout : a ∉ children block := fun hmem => hempty a hmem q hpoints
    obtain ⟨node, hnode, hmem⟩ := hpoints
    exact ⟨node, (nodes_discard_of_notMem hout).trans hnode, hmem⟩
  have hne : ∀ {a q}, heap.Points a q → q ≠ p := by
    rintro a q hpoints rfl
    exact howned.unowned hp hpoints
  exact
    { isScoped := howned.isScoped.drop hblock
      single := fun hnode => howned.single (nodes_of_discard hnode).2
      unique := fun hpoints hpoints' => howned.unique (hkept.mp hpoints) (hkept.mp hpoints')
      present := by
        intro a q hpoints
        rw [blocks_drop_of_ne (hne (hkept.mp hpoints))]
        exact howned.present (hkept.mp hpoints)
      owner := by
        intro q hq hout
        obtain ⟨block', hblock'⟩ := Option.isSome_iff_exists.mp hq
        obtain ⟨hneq, hold⟩ := blocks_of_drop hblock'
        obtain ⟨a, hpoints⟩ := howned.owner (Option.isSome_of_eq_some hold) fun hfree => hout ⟨hfree, hneq⟩
        exact ⟨a, hkept.mpr hpoints⟩
      loose_present := by
        rintro q ⟨hfree, hneq⟩
        rw [blocks_drop_of_ne hneq]
        exact howned.loose_present hfree
      unowned := fun hq hpoints => howned.unowned hq.1 (hkept.mp hpoints)
      order := fun hpoints hcontains => howned.order (hkept.mp hpoints) (contains_drop hcontains).2 }

/-- A new block is loose at first. -/
theorem Owned.newBlock (howned : heap.Owned loose) (hchildren : children block = []) :
    (heap.newBlock block).Owned (insert heap.top loose) := by
  have hnone : ∀ c ∈ children block, False := by
    rw [hchildren]
    exact fun c hc => (List.not_mem_nil hc)
  have hne : ∀ {q block'}, heap.blocks q = some block' → q ≠ heap.top :=
    fun hblock' => (howned.isScoped.blocks_lt hblock').ne
  have hkept : ∀ {q}, (heap.blocks q).isSome → ((heap.newBlock block).blocks q).isSome := by
    intro q hq
    obtain ⟨block', hblock'⟩ := Option.isSome_iff_exists.mp hq
    rwa [blocks_newBlock_of_ne (hne hblock')]
  exact
    { isScoped := howned.isScoped.newBlock (hchildren ▸ List.nodup_nil) (fun c hc => (hnone c hc).elim)
        (fun c hc => (hnone c hc).elim) fun c _ hc => hnone c hc
      single := howned.single
      unique := howned.unique
      present := fun hpoints => hkept (howned.present hpoints)
      owner := by
        intro q hq hout
        rw [Set.mem_insert_iff, not_or] at hout
        rw [blocks_newBlock_of_ne hout.1] at hq
        exact howned.owner hq hout.2
      loose_present := by
        rintro q (rfl | hfree)
        · exact Option.isSome_of_eq_some blocks_newBlock_top
        · exact hkept (howned.loose_present hfree)
      unowned := by
        rintro a q (rfl | hfree) hpoints
        · exact absurd (howned.isScoped.pointers_lt hpoints) (Nat.lt_irrefl _)
        · exact howned.unowned hfree hpoints
      order := by
        intro a q c hpoints hcontains
        rcases contains_setBlock hcontains with ⟨-, hmem⟩ | ⟨-, hold⟩
        · exact (hnone c hmem).elim
        · exact howned.order hpoints hold }

/-- A new node takes loose blocks without nodes. -/
theorem Owned.newNode (howned : heap.Owned loose) (hnodup : (pointers node).Nodup)
    (hfree : ∀ p ∈ pointers node, p ∈ loose ∧ ∀ c, ¬ heap.Contains p c) :
    (heap.newNode node).Owned {p ∈ loose | p ∉ pointers node} := by
  have hlt : ∀ p ∈ pointers node, p < heap.top := by
    intro p hp
    obtain ⟨block, hblock⟩ := Option.isSome_iff_exists.mp (howned.loose_present (hfree p hp).1)
    exact howned.isScoped.blocks_lt hblock
  exact
    { isScoped := howned.isScoped.newNode hlt
      single := by
        intro a other hother
        by_cases heq : a = heap.top
        · rw [heq, nodes_newNode_top, Option.some.injEq] at hother
          exact hother ▸ hnodup
        · exact howned.single ((nodes_newNode_of_ne heq).symm.trans hother)
      unique := by
        intro a b p hpoints hpoints'
        rcases points_newNode hpoints with ⟨rfl, hmem⟩ | ⟨-, hold⟩
        · rcases points_newNode hpoints' with ⟨rfl, -⟩ | ⟨-, hold'⟩
          · rfl
          · exact absurd hold' (howned.unowned (hfree p hmem).1)
        · rcases points_newNode hpoints' with ⟨-, hmem'⟩ | ⟨-, hold'⟩
          · exact absurd hold (howned.unowned (hfree p hmem').1)
          · exact howned.unique hold hold'
      present := by
        intro a p hpoints
        rcases points_newNode hpoints with ⟨-, hmem⟩ | ⟨-, hold⟩
        · exact howned.loose_present (hfree p hmem).1
        · exact howned.present hold
      owner := by
        intro p hp hout
        by_cases hmem : p ∈ pointers node
        · exact ⟨heap.top, node, nodes_newNode_top, hmem⟩
        · obtain ⟨a, hpoints⟩ := howned.owner hp fun hin => hout ⟨hin, hmem⟩
          obtain ⟨other, hother, hin⟩ := hpoints
          have hne : a ≠ heap.top := (howned.isScoped.nodes_lt hother).ne
          exact ⟨a, other, (nodes_newNode_of_ne hne).trans hother, hin⟩
      loose_present := fun hp => howned.loose_present hp.1
      unowned := by
        rintro a p ⟨hin, hnot⟩ hpoints
        rcases points_newNode hpoints with ⟨-, hmem⟩ | ⟨-, hold⟩
        · exact hnot hmem
        · exact howned.unowned hin hold
      order := by
        intro a p c hpoints hcontains
        rcases points_newNode hpoints with ⟨-, hmem⟩ | ⟨-, hold⟩
        · exact absurd hcontains ((hfree p hmem).2 c)
        · exact howned.order hold hcontains }

theorem Owned.newRoot (howned : heap.Owned loose) (hnodup : (pointers node).Nodup)
    (hfree : ∀ p ∈ pointers node, p ∈ loose ∧ ∀ c, ¬ heap.Contains p c) :
    (heap.newRoot node).Owned {p ∈ loose | p ∉ pointers node} := by
  have hnew := howned.newNode hnodup hfree
  refine ⟨howned.isScoped.newRoot fun p hp => ?_, hnew.single, hnew.unique, hnew.present, hnew.owner,
    hnew.loose_present, hnew.unowned, hnew.order⟩
  obtain ⟨block, hblock⟩ := Option.isSome_iff_exists.mp (howned.loose_present (hfree p hp).1)
  exact howned.isScoped.blocks_lt hblock

/-- Other contents for a block that is there. -/
theorem Owned.setBlock (howned : heap.Owned loose) (hblock : heap.blocks p = some old)
    (hscoped : (heap.setBlock p block).Scoped)
    (horder : ∀ a, heap.Points a p → ∀ c ∈ children block, a < c) :
    (heap.setBlock p block).Owned loose := by
  have hsome : ∀ {q}, ((heap.setBlock p block).blocks q).isSome ↔ (heap.blocks q).isSome := by
    intro q
    by_cases heq : q = p
    · rw [heq, blocks_setBlock_self, hblock]
      exact iff_of_true rfl rfl
    · rw [blocks_setBlock_of_ne heq]
  exact
    { isScoped := hscoped
      single := howned.single
      unique := howned.unique
      present := fun hpoints => hsome.mpr (howned.present hpoints)
      owner := fun hq hout => howned.owner (hsome.mp hq) hout
      loose_present := fun hq => hsome.mpr (howned.loose_present hq)
      unowned := howned.unowned
      order := by
        intro a q c hpoints hcontains
        rcases contains_setBlock hcontains with ⟨rfl, hmem⟩ | ⟨-, hold⟩
        · exact horder a hpoints c hmem
        · exact howned.order hpoints hold }

/-- Nodes that point to nothing may go. -/
theorem Owned.discard (howned : heap.Owned loose) (hscoped : (heap.discard addrs).Scoped)
    (hempty : ∀ c ∈ addrs, ∀ q, ¬ heap.Points c q) : (heap.discard addrs).Owned loose where
  isScoped := hscoped
  single := fun hnode => howned.single (nodes_of_discard hnode).2
  unique := fun hpoints hpoints' => howned.unique (points_discard hpoints).2 (points_discard hpoints').2
  present := fun hpoints => howned.present (points_discard hpoints).2
  owner := by
    intro p hp hout
    obtain ⟨a, hpoints⟩ := howned.owner hp hout
    have hkept : a ∉ addrs := fun hmem => hempty a hmem p hpoints
    obtain ⟨node, hnode, hmem⟩ := hpoints
    exact ⟨a, node, (nodes_discard_of_notMem hkept).trans hnode, hmem⟩
  loose_present := howned.loose_present
  unowned := fun hp hpoints => howned.unowned hp (points_discard hpoints).2
  order := fun hpoints hcontains => howned.order (points_discard hpoints).2 hcontains

omit [Pointers ν] [Children β] in
theorem setNode_self (hnode : heap.nodes a = some node) : heap.setNode a node = heap := by
  rw [NodeHeap.setNode, ← hnode, Function.update_eq_self]

omit [Pointers ν] in
/-- A node that is not in a block may be written before the block goes, or after it. -/
theorem drop_setNode (hout : a ∉ children block) :
    (heap.setNode a node).drop p block = (heap.drop p block).setNode a node := by
  apply NodeHeap.ext
  · funext b
    by_cases heq : b = a
    · subst heq
      rw [nodes_setNode_self]
      exact (nodes_discard_of_notMem hout).trans nodes_setNode_self
    · rw [nodes_setNode_of_ne heq]
      by_cases hmem : b ∈ children block
      · exact (nodes_discard_of_mem hmem).trans (nodes_discard_of_mem hmem).symm
      · exact (nodes_discard_of_notMem hmem).trans
          ((nodes_setNode_of_ne heq).trans (nodes_discard_of_notMem hmem).symm)
  · rfl
  · rfl
  · rfl

end NodeHeap

end CppProjects
