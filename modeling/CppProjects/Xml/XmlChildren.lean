import CppProjects.Xml.XmlAssign

/-!
# The children of an `XML`

What `operator[]` does to the list of an element whose children are trees: it is left as
it is, or nodes without children are put behind it.
-/

namespace CppProjects

namespace XmlTree

/-- What `name()` returns. -/
def nameText : XmlTree → XmlText
  | .element name _ _ _ => name.getD []

/-- What `XML()` and `XML(name)` construct. -/
def leaf (name : Option XmlText) : XmlTree := .element name [] OrderedMap.empty []

end XmlTree

namespace XmlHeap

open NodeHeap CInt

variable {heap heap' : XmlHeap} {this p addr : ℕ} {cells : List Cell} {cell : Cell} {xml : Xml}
  {t : XmlTree} {footprint : List ℕ}

/-- The element has a list, at `p`, and its children are the cells. -/
structure ChildrenAt (heap : XmlHeap) (this p : ℕ) (cells : List Cell) : Prop where
  pointer : ∃ xml, heap.nodes this = some xml ∧ xml.mChildren = some p
  block : heap.blocks p = some (.list (cells.map Cell.addr))
  holds : ∀ cell ∈ cells, heap.Holds cell.addr cell.tree cell.footprint

/-- The children of an element; there are none while it has no list. -/
def HasChildren (heap : XmlHeap) (this : ℕ) : Option (List Cell) → Prop
  | none => ∃ xml, heap.nodes this = some xml ∧ xml.mChildren = none
  | some cells => ∃ p, heap.ChildrenAt this p cells

/-! ## The list and what is below it -/

theorem payload_congr (hnodes : ∀ b ∈ footprint, heap'.nodes b = heap.nodes b) :
    payload heap' footprint = payload heap footprint :=
  List.flatMap_congr fun b hb => by rw [hnodes b hb]

theorem Holds.nameText (hholds : heap.Holds addr t footprint) (hnode : heap.nodes addr = some xml) :
    heap.name xml = some t.nameText := by
  cases hholds with
  | element hnode' hname =>
      obtain rfl := Option.some.inj (hnode.symm.trans hnode')
      exact hname

/-- No child points to the list it is in, nor does anything below it. -/
theorem ChildrenAt.notMem_payload (hchildren : heap.ChildrenAt this p cells) (hmem : cell ∈ cells) :
    p ∉ payload heap cell.footprint := by
  intro hp
  obtain ⟨b, hb, xml, hnode, hpointer⟩ := mem_payload.mp hp
  obtain ⟨t, footprint, hholds, -, hlength⟩ := (hchildren.holds cell hmem).exists_holds hb
  cases hholds with
  | @element _ xml' text attrs name below hnode' hname _ htext hattrs hlist hbelow =>
      obtain rfl := Option.some.inj (hnode.symm.trans hnode')
      have hnone : ∀ b, heap.Contains p b → p ∉ xml.mName ∧ p ∉ xml.mText ∧ p ∉ xml.mAttrs := by
        intro b hcontains
        have hscalar := fun h => (scalar_of_reads hname htext hattrs (p := p) h).2 b hcontains
        exact ⟨fun h => hscalar (.inl h), fun h => hscalar (.inr (.inr h)),
          fun h => hscalar (.inr (.inl h))⟩
      have hcontains : heap.Contains p cell.addr :=
        ⟨_, hchildren.block, List.mem_map_of_mem hmem⟩
      obtain ⟨hnotName, hnotText, hnotAttrs⟩ := hnone _ hcontains
      have hpointer' : p ∈ xml.mChildren := by
        rcases mem_pointers.mp hpointer with h | h | h | h
        · exact absurd h hnotName
        · exact absurd h hnotText
        · exact absurd h hnotAttrs
        · exact h
      -- the node's own children are then those of the element, with the child it is below
      have hlisted : cell.addr ∈ below.map Cell.addr :=
        (contains_iff_of_childrenAt hlist).mp ⟨p, hpointer', hcontains⟩
      obtain ⟨cell', hcell', haddr⟩ := List.mem_map.mp hlisted
      have hsame : cell'.footprint = cell.footprint :=
        (haddr ▸ hbelow cell' hcell').footprint_unique (hchildren.holds cell hmem)
      have hle := length_le_flatMap hcell'
      rw [List.length_cons] at hlength
      rw [hsame] at hle
      omega

/-- The element itself is not below its children. -/
theorem ChildrenAt.notMem_footprint (hchildren : heap.ChildrenAt this p cells)
    (hmem : cell ∈ cells) : this ∉ cell.footprint := by
  intro hthis
  obtain ⟨xml, hnode, hpointer⟩ := hchildren.pointer
  have hpoints : heap.Points this p :=
    ⟨xml, hnode, mem_pointers.mpr (.inr (.inr (.inr hpointer)))⟩
  exact hchildren.notMem_payload hmem (mem_payload.mpr ⟨this, hthis, hpoints⟩)

theorem Holds.lt_top (hscoped : heap.Scoped) (hholds : heap.Holds addr t footprint) {b : ℕ}
    (hb : b ∈ footprint) : b < heap.top := by
  obtain ⟨t', footprint', hholds', -, -⟩ := hholds.exists_holds hb
  obtain ⟨xml, hnode⟩ := hholds'.exists_node
  exact hscoped.nodes_lt hnode

theorem payload_lt_top (hscoped : heap.Scoped) {q : ℕ}
    (hq : q ∈ payload heap footprint) : q < heap.top := by
  obtain ⟨b, -, hpoints⟩ := mem_payload.mp hq
  exact hscoped.pointers_lt hpoints

/-! ## Growth -/

/-- What was there before is still there, apart from the list at `p`. -/
structure Extends (p : ℕ) (heap heap' : XmlHeap) : Prop where
  top : heap.top ≤ heap'.top
  nodes : ∀ b < heap.top, heap'.nodes b = heap.nodes b
  blocks : ∀ q < heap.top, q ≠ p → heap'.blocks q = heap.blocks q

theorem Extends.payload (hextends : Extends p heap heap') (hscoped : heap.Scoped)
    (hholds : heap.Holds addr t footprint) :
    XmlHeap.payload heap' footprint = XmlHeap.payload heap footprint :=
  payload_congr fun b hb => hextends.nodes b (hholds.lt_top hscoped hb)

theorem Extends.holds (hextends : Extends p heap heap') (hscoped : heap.Scoped)
    (hholds : heap.Holds addr t footprint) (hapart : p ∉ XmlHeap.payload heap footprint) :
    heap'.Holds addr t footprint := by
  apply hholds.transport
  · exact fun b hb => hextends.nodes b (hholds.lt_top hscoped hb)
  · intro q hq
    exact hextends.blocks q (payload_lt_top hscoped hq) fun heq => hapart (heq ▸ hq)

theorem Extends.refl (p : ℕ) (heap : XmlHeap) : Extends p heap heap :=
  ⟨Nat.le_refl _, fun _ _ => rfl, fun _ _ _ => rfl⟩

theorem Extends.trans {middle : XmlHeap} (hfirst : Extends p heap middle)
    (hsecond : Extends p middle heap') : Extends p heap heap' where
  top := hfirst.top.trans hsecond.top
  nodes := fun b hb => (hsecond.nodes b (hb.trans_le hfirst.top)).trans (hfirst.nodes b hb)
  blocks := fun q hq hne =>
    (hsecond.blocks q (hq.trans_le hfirst.top) hne).trans (hfirst.blocks q hq hne)

theorem ChildrenAt.lt_top (hchildren : heap.ChildrenAt this p cells) (hscoped : heap.Scoped) :
    this < heap.top := by
  obtain ⟨xml, hnode, -⟩ := hchildren.pointer
  exact hscoped.nodes_lt hnode

/-- Cells behind the ones that are kept. -/
theorem ChildrenAt.of_extends (hchildren : heap.ChildrenAt this p cells) (hscoped : heap.Scoped)
    (hextends : Extends p heap heap') {more : List Cell}
    (hblock : heap'.blocks p = some (.list ((cells ++ more).map Cell.addr)))
    (hmore : ∀ cell ∈ more, heap'.Holds cell.addr cell.tree cell.footprint) :
    heap'.ChildrenAt this p (cells ++ more) where
  pointer := by
    rw [hextends.nodes this (hchildren.lt_top hscoped)]
    exact hchildren.pointer
  block := hblock
  holds := by
    intro cell hmem
    rcases List.mem_append.mp hmem with hold | hnew
    · exact hextends.holds hscoped (hchildren.holds cell hold) (hchildren.notMem_payload hold)
    · exact hmore cell hnew

/-- A list with the new node at its end. -/
theorem scoped_push {pushed : Xml} {elements : List ℕ} (hscoped : heap.Scoped)
    (hnew : (heap.newNode pushed).Scoped) (hblock : heap.blocks p = some (.list elements)) :
    ((heap.newNode pushed).setBlock p (.list (elements ++ [heap.top]))).Scoped := by
  have hold : ∀ b ∈ elements, heap.Contains p b := fun b hb => ⟨_, hblock, hb⟩
  have hlt : ∀ b ∈ elements, b ≠ heap.top := fun b hb => (hscoped.contains_lt (hold b hb)).ne
  have hsplit : ∀ {b}, b ∈ elements ++ [heap.top] → b ∈ elements ∨ b = heap.top := by
    intro b hb
    rwa [List.mem_append, List.mem_singleton] at hb
  refine hnew.setBlock (Nat.lt_succ_of_lt (hscoped.blocks_lt hblock)) ?_ ?_ ?_ ?_
  · refine List.nodup_append'.mpr ⟨hscoped.nodup hblock, List.nodup_singleton _, ?_⟩
    exact fun b hb hb' => hlt b hb (List.mem_singleton.mp hb')
  · intro b hb
    rcases hsplit hb with h | rfl
    · exact isSome_newNode (hscoped.live (hold b h))
    · exact Option.isSome_of_eq_some nodes_newNode_top
  · intro b hb q hcontains
    rcases hsplit hb with h | rfl
    · exact hscoped.apart hcontains (hold b h)
    · exact absurd (hscoped.contains_lt hcontains) (lt_irrefl _)
  · intro b hroot hb
    rcases hsplit hb with h | rfl
    · exact hscoped.roots_apart b hroot p (hold b h)
    · obtain ⟨node, hnode⟩ := Option.isSome_iff_exists.mp (hscoped.roots_live _ hroot)
      exact absurd (hscoped.nodes_lt hnode) (lt_irrefl _)

/-- `push_back` of a node that holds at most a name. -/
theorem ChildrenAt.pushBack (hchildren : heap.ChildrenAt this p cells) (hscoped : heap.Scoped)
    {pointer : Option ℕ} {name : Option XmlText} (htext : heap.textAt pointer = some (name.getD []))
    (hnull : pointer = none ↔ name = none) :
    ∃ heap', XmlHeap.pushBack heap this { null with mName := pointer } = some heap' ∧
      heap'.Scoped ∧ Extends p heap heap' ∧
      heap'.ChildrenAt this p (cells ++ [⟨heap.top, .leaf name, [heap.top]⟩]) ∧
      XmlHeap.payload heap' [heap.top] = pointer.toList := by
  obtain ⟨xml, hnode, hpointer⟩ := hchildren.pointer
  let pushed : XmlHeap := (heap.newNode { null with mName := pointer }).setBlock p
    (.list (cells.map Cell.addr ++ [heap.top]))
  have hne : ∀ q ∈ pointer, q ≠ p := by
    rintro q hq rfl
    rw [Option.mem_def.mp hq] at htext
    cases hchildren.block.symm.trans (blocks_of_textAt htext)
  have hextends : Extends p heap pushed := by
    refine ⟨Nat.le_succ _, fun b hb => ?_, fun q hq hqp => ?_⟩
    · exact nodes_newNode_of_ne (Nat.ne_of_lt hb)
    · exact blocks_setBlock_of_ne hqp
  have hnew : pushed.nodes heap.top = some { null with mName := pointer } := nodes_newNode_top
  have hscoped' : pushed.Scoped := by
    have hroom : (heap.newNode { null with mName := pointer }).Scoped := by
      refine hscoped.newNode fun q hq => ?_
      have hq' : q ∈ pointer := by simpa [pointers, null] using hq
      rw [Option.mem_def.mp hq'] at htext
      exact hscoped.blocks_lt (blocks_of_textAt htext)
    exact scoped_push hscoped hroom hchildren.block
  refine ⟨pushed, ?_, hscoped', hextends, ?_, ?_⟩
  · have hread : childrenAt heap (some p) = some (cells.map Cell.addr) := by
      rw [childrenAt, hchildren.block]
      rfl
    rw [XmlHeap.pushBack, hnode, Option.bind_eq_bind, Option.bind_some, hpointer,
      Option.bind_eq_bind, Option.bind_some, hread]
    rfl
  · have hblock : pushed.blocks p = some (.list (cells.map Cell.addr ++ [heap.top])) :=
      blocks_setBlock_self
    refine hchildren.of_extends hscoped hextends (by rw [hblock, List.map_append]; rfl) ?_
    intro cell hcell
    obtain rfl := List.mem_singleton.mp hcell
    have htext' : pushed.textAt pointer = some (name.getD []) :=
      (textAt_congr fun q hq => blocks_setBlock_of_ne (hne q hq)).trans htext
    have hholds : pushed.Holds heap.top
        (.element name [] OrderedMap.empty (([] : List Cell).map Cell.tree))
        (heap.top :: ([] : List Cell).flatMap Cell.footprint) :=
      .element hnew htext' hnull rfl rfl rfl fun _ hmem => (nomatch hmem)
    exact hholds
  · rw [payload_cons hnew]
    simp [pointers, null, XmlHeap.payload]

/-- Nodes without anything are pushed as long as `i++` stays in range. -/
theorem ChildrenAt.pushNulls (count : ℕ) (hchildren : heap.ChildrenAt this p cells)
    (hscoped : heap.Scoped) {i : ℤ} (hfits : i + count ≤ intMax) :
    ∃ heap' added, XmlHeap.pushNulls this count i heap = some heap' ∧ heap'.Scoped ∧
      Extends p heap heap' ∧ heap'.ChildrenAt this p (cells ++ added) ∧
      added.map Cell.tree = List.replicate count (.leaf none) ∧
      XmlHeap.payload heap' (added.flatMap Cell.footprint) = [] := by
  induction count generalizing heap cells i with
  | zero =>
      refine ⟨heap, [], rfl, hscoped, .refl p heap, ?_, rfl, rfl⟩
      rwa [List.append_nil]
  | succ count ih =>
      rw [Nat.cast_succ] at hfits
      have htext : heap.textAt none = some ((none : Option XmlText).getD []) := rfl
      obtain ⟨middle, hpush, hscoped', hextends, hmiddle, hpayload⟩ :=
        hchildren.pushBack hscoped htext (iff_of_true rfl rfl)
      obtain ⟨heap', added, hrest, hscoped'', hextends', hlast, htrees, hnone⟩ :=
        ih hmiddle hscoped' (i := i + 1) (by omega)
      have hnew := hmiddle.holds _ (List.mem_append_right _ List.mem_cons_self)
      refine ⟨heap', ⟨heap.top, .leaf none, [heap.top]⟩ :: added, ?_, hscoped'',
        hextends.trans hextends', by rwa [List.append_assoc] at hlast, ?_, ?_⟩
      · have hne : i ≠ intMax := by omega
        rw [XmlHeap.pushNulls]
        change (XmlHeap.pushBack heap this null).bind _ = _
        have hpush' : XmlHeap.pushBack heap this null = some middle := hpush
        rw [hpush', Option.bind_some, if_neg hne]
        exact hrest
      · rw [List.map_cons, htrees, List.replicate_succ]
      · rw [List.flatMap_cons, payload_append, hnone, List.append_nil]
        exact (hextends'.payload hscoped' hnew).trans hpayload

/-- The loop does not end where it has to push behind the largest `int`. -/
theorem pushNulls_overflow (count : ℕ) {i : ℤ} (hle : i ≤ intMax) (hlt : intMax < i + count) :
    XmlHeap.pushNulls this count i heap = none := by
  induction count generalizing heap i with
  | zero =>
      rw [Nat.cast_zero] at hlt
      omega
  | succ count ih =>
      rw [Nat.cast_succ] at hlt
      rw [XmlHeap.pushNulls]
      cases XmlHeap.pushBack heap this null with
      | none => rfl
      | some middle =>
          change (if i = intMax then none else _) = _
          split_ifs with heq
          · rfl
          · exact ih (by omega) (by omega)

/-! ## `operator[]` -/

/-- Before a child is looked for there is a list. -/
theorem HasChildren.ensureChildren {children : Option (List Cell)}
    (hchildren : heap.HasChildren this children) (hscoped : heap.Scoped) :
    ∃ heap' p, XmlHeap.ensureChildren heap this = some heap' ∧ heap'.Scoped ∧
      heap.top ≤ heap'.top ∧ heap'.ChildrenAt this p (children.getD []) ∧
      ∀ cell ∈ children.getD [], XmlHeap.payload heap' cell.footprint =
        XmlHeap.payload heap cell.footprint := by
  cases children with
  | some cells =>
      obtain ⟨p, hat⟩ := hchildren
      obtain ⟨xml, hnode, hpointer⟩ := hat.pointer
      refine ⟨heap, p, ?_, hscoped, Nat.le_refl _, hat, fun _ _ => rfl⟩
      rw [XmlHeap.ensureChildren, hnode, Option.bind_eq_bind, Option.bind_some, hpointer]
  | none =>
      obtain ⟨xml, hnode, hpointer⟩ := hchildren
      have hlive : ((heap.newBlock (.list [])).nodes this).isSome := Option.isSome_of_eq_some hnode
      have hroom : (heap.newBlock (XmlBlock.list [])).Scoped :=
        hscoped.newBlock List.nodup_nil (fun _ h => (nomatch h)) (fun _ h => (nomatch h))
          fun _ _ h => (nomatch h)
      let listed : XmlHeap :=
        (heap.newBlock (.list [])).setNode this { xml with mChildren := some heap.top }
      refine ⟨listed, heap.top, ?_, hroom.setNode hlive ?_, Nat.le_succ _, ⟨?_, ?_, ?_⟩, ?_⟩
      · rw [XmlHeap.ensureChildren, hnode, Option.bind_eq_bind, Option.bind_some, hpointer]
        exact if_pos hlive
      · have hold : ∀ q ∈ pointers xml, q < heap.top + 1 :=
          fun q hq => Nat.lt_succ_of_lt (hscoped.pointers_lt ⟨xml, hnode, hq⟩)
        intro q hq
        rcases mem_pointers.mp hq with h | h | h | h
        · exact hold q (mem_pointers.mpr (.inl h))
        · exact hold q (mem_pointers.mpr (.inr (.inl h)))
        · exact hold q (mem_pointers.mpr (.inr (.inr (.inl h))))
        · rw [← Option.some.inj h]
          exact Nat.lt_succ_self _
      · exact ⟨{ xml with mChildren := some heap.top }, nodes_setNode_self, rfl⟩
      · exact blocks_newBlock_top
      · exact fun _ h => (nomatch h)
      · exact fun _ h => (nomatch h)

theorem ChildrenAt.childrenAt (hchildren : heap.ChildrenAt this p cells) :
    heap.childrenAt (some p) = some (cells.map Cell.addr) := by
  rw [XmlHeap.childrenAt, hchildren.block]
  rfl

/-- The element has kept its children and has got some more, which share nothing. -/
structure Grown (heap : XmlHeap) (this : ℕ) (cells added : List Cell) (heap' : XmlHeap) : Prop where
  isScoped : heap'.Scoped
  children : heap'.HasChildren this (some (cells ++ added))
  kept : ∀ cell ∈ cells, XmlHeap.payload heap' cell.footprint = XmlHeap.payload heap cell.footprint
  nodup : (XmlHeap.payload heap' (added.flatMap Cell.footprint)).Nodup
  fresh : ∀ q ∈ XmlHeap.payload heap' (added.flatMap Cell.footprint), heap.top ≤ q

theorem toInt_le (n : ℕ) : toInt n ≤ n := by
  obtain ⟨⟨-, hhigh⟩, turns, hturns⟩ := toInt_spec (n : ℤ)
  by_contra hlt
  omega

/-- `operator[](int)` finds a child, or makes the list long enough. -/
theorem HasChildren.index {children : Option (List Cell)} {i : ℕ}
    (hchildren : heap.HasChildren this children) (hscoped : heap.Scoped)
    (hfits : (i : ℤ) < toInt (children.getD []).length ∨
      (children.getD []).length ≤ i ∧ i < intMax) :
    ∃ heap' addr added, XmlHeap.index heap this i = some (heap', .ok addr) ∧
      heap.Grown this (children.getD []) added heap' ∧
      added.map Cell.tree = List.replicate (i + 1 - (children.getD []).length) (.leaf none) ∧
      ((children.getD [] ++ added).map Cell.addr)[i]? = some addr := by
  obtain ⟨middle, p, hensure, hscoped', -, hmiddle, hpayload⟩ := hchildren.ensureChildren hscoped
  obtain ⟨xml, hnode, hpointer⟩ := hmiddle.pointer
  generalize children.getD [] = cells at *
  have hnonneg : ¬ (i : ℤ) < 0 := by omega
  have hlength : toInt (cells.map Cell.addr).length = toInt cells.length := by rw [List.length_map]
  rw [XmlHeap.index, if_neg hnonneg, hensure, Option.bind_eq_bind, Option.bind_some, hnode,
    Option.bind_eq_bind, Option.bind_some, hpointer, hmiddle.childrenAt, Option.bind_eq_bind,
    Option.bind_some]
  rcases hfits with hinside | ⟨hbehind, hfits⟩
  · have hlt : i < cells.length := Int.ofNat_lt.mp (hinside.trans_le (toInt_le _))
    obtain ⟨addr, haddr⟩ : ∃ addr, (cells.map Cell.addr)[i]? = some addr :=
      ⟨_, List.getElem?_eq_getElem (by rwa [List.length_map])⟩
    refine ⟨middle, addr, [], ?_, ⟨hscoped', ?_, hpayload, ?_, ?_⟩, ?_, ?_⟩
    · rw [hlength, if_pos hinside, Int.toNat_natCast, haddr]
      rfl
    · exact ⟨p, by rwa [List.append_nil]⟩
    · exact List.nodup_nil
    · exact fun q hq => (nomatch hq)
    · rw [Nat.sub_eq_zero_of_le hlt]
      rfl
    · rwa [List.append_nil]
  · have hself : toInt (cells.map Cell.addr).length = cells.length := by
      rw [hlength]
      rw [intMax] at hfits
      exact toInt_eq_self ⟨by omega, by omega⟩
    obtain ⟨heap', added, hpush, hscoped'', hextends, hlast, htrees, hnone⟩ :=
      hmiddle.pushNulls (i + 1 - cells.length) hscoped' (i := cells.length) (by omega)
    have hcount : added.length = i + 1 - cells.length := by
      rw [← List.length_map (f := Cell.tree), htrees, List.length_replicate]
    have hat : ((cells ++ added).map Cell.addr).length = i + 1 := by
      rw [List.length_map, List.length_append, hcount]
      omega
    obtain ⟨addr, haddr⟩ : ∃ addr, ((cells ++ added).map Cell.addr)[i]? = some addr :=
      ⟨_, List.getElem?_eq_getElem (by omega)⟩
    refine ⟨heap', addr, added, ?_, ⟨hscoped'', ⟨p, hlast⟩, ?_, ?_, ?_⟩, htrees, haddr⟩
    · have hturns : ((i : ℤ) + 1 - cells.length).toNat = i + 1 - cells.length := by omega
      rw [if_neg (by omega), hself, hturns, hpush, Option.bind_eq_bind, Option.bind_some,
        hlast.childrenAt, Option.bind_some, List.getLast?_eq_getElem?, hat, Nat.add_sub_cancel, haddr]
      rfl
    · intro cell hmem
      rw [hextends.payload hscoped' (hmiddle.holds cell hmem), hpayload cell hmem]
    · rw [hnone]
      exact List.nodup_nil
    · rw [hnone]
      exact fun q hq => (nomatch hq)

/-- Padding up to the largest `int` has no outcome. -/
theorem HasChildren.index_eq_none {children : Option (List Cell)} {i : ℕ}
    (hchildren : heap.HasChildren this children) (hscoped : heap.Scoped)
    (hbehind : toInt (children.getD []).length ≤ i) (hmax : intMax ≤ i) :
    XmlHeap.index heap this i = none := by
  obtain ⟨middle, p, hensure, -, -, hmiddle, -⟩ := hchildren.ensureChildren hscoped
  obtain ⟨xml, hnode, hpointer⟩ := hmiddle.pointer
  generalize children.getD [] = cells at *
  have hnonneg : ¬ (i : ℤ) < 0 := by omega
  have hlength : toInt (cells.map Cell.addr).length = toInt cells.length := by rw [List.length_map]
  have hlow : toInt cells.length ≤ intMax := Int.le_of_lt_add_one (toInt_spec cells.length).1.2
  have hturns : ((i : ℤ) + 1 - toInt cells.length).toNat = (i : ℤ) + 1 - toInt cells.length :=
    Int.toNat_of_nonneg (by linarith)
  rw [XmlHeap.index, if_neg hnonneg, hensure, Option.bind_eq_bind, Option.bind_some, hnode,
    Option.bind_eq_bind, Option.bind_some, hpointer, hmiddle.childrenAt, Option.bind_eq_bind,
    Option.bind_some, hlength, if_neg (not_lt.mpr hbehind),
    pushNulls_overflow _ hlow (by rw [hturns]; linarith)]
  rfl

/-- The search of `operator[](const string &)`. -/
theorem findName_eq (name : XmlText)
    (hcells : ∀ cell ∈ cells, heap.Holds cell.addr cell.tree cell.footprint) :
    findName heap name (cells.map Cell.addr) =
      some ((cells.findIdx? fun cell => cell.tree.nameText = name).bind fun k =>
        (cells.map Cell.addr)[k]?) := by
  induction cells with
  | nil => rfl
  | cons cell cells ih =>
      obtain ⟨hhead, hrest⟩ := List.forall_mem_cons.mp hcells
      obtain ⟨xml, hnode⟩ := hhead.exists_node
      rw [List.map_cons, findName, hnode, Option.bind_eq_bind, Option.bind_some,
        hhead.nameText hnode, Option.bind_eq_bind, Option.bind_some, List.findIdx?_cons]
      by_cases hname : cell.tree.nameText = name
      · rw [if_pos hname, if_pos (decide_eq_true hname)]
        rfl
      · rw [if_neg hname, if_neg (by simpa using hname), ih hrest, Option.bind_map]
        rfl

/-- The first child of the name is found. -/
theorem HasChildren.indexName_of_some {children : Option (List Cell)} {name : XmlText} {k : ℕ}
    (hchildren : heap.HasChildren this children) (hscoped : heap.Scoped)
    (hfind : ((children.getD []).findIdx? fun cell => cell.tree.nameText = name) = some k) :
    ∃ heap' addr, XmlHeap.indexName heap this name = some (heap', addr) ∧
      heap.Grown this (children.getD []) [] heap' ∧
      ((children.getD []).map Cell.addr)[k]? = some addr := by
  obtain ⟨middle, p, hensure, hscoped', -, hmiddle, hpayload⟩ := hchildren.ensureChildren hscoped
  obtain ⟨xml, hnode, hpointer⟩ := hmiddle.pointer
  generalize children.getD [] = cells at *
  obtain ⟨hlt, -⟩ := List.findIdx?_eq_some_iff_getElem.mp hfind
  obtain ⟨addr, haddr⟩ : ∃ addr, (cells.map Cell.addr)[k]? = some addr :=
    ⟨_, List.getElem?_eq_getElem (by rwa [List.length_map])⟩
  refine ⟨middle, addr, ?_, ⟨hscoped', ⟨p, by rwa [List.append_nil]⟩, hpayload, List.nodup_nil,
    fun q hq => (nomatch hq)⟩, haddr⟩
  rw [XmlHeap.indexName, hensure, Option.bind_eq_bind, Option.bind_some, hnode,
    Option.bind_eq_bind, Option.bind_some, hpointer, hmiddle.childrenAt, Option.bind_eq_bind,
    Option.bind_some, findName_eq name hmiddle.holds, hfind, Option.bind_some, haddr]
  rfl

/-- Where no child has the name, one is appended. -/
theorem HasChildren.indexName_of_none {children : Option (List Cell)} {name : XmlText}
    (hchildren : heap.HasChildren this children) (hscoped : heap.Scoped)
    (hfind : ((children.getD []).findIdx? fun cell => cell.tree.nameText = name) = none) :
    ∃ heap' addr cell, XmlHeap.indexName heap this name = some (heap', addr) ∧
      heap.Grown this (children.getD []) [cell] heap' ∧
      cell.tree = .leaf (some name) ∧ cell.addr = addr := by
  obtain ⟨middle, p, hensure, hscoped', htop, hmiddle, hpayload⟩ := hchildren.ensureChildren hscoped
  obtain ⟨xml, hnode, hpointer⟩ := hmiddle.pointer
  generalize children.getD [] = cells at *
  let named : XmlHeap := middle.newBlock (.string name)
  have hscoped'' : named.Scoped :=
    hscoped'.newBlock List.nodup_nil (fun _ h => (nomatch h)) (fun _ h => (nomatch h))
      fun _ _ h => (nomatch h)
  have hextends : Extends p middle named :=
    ⟨Nat.le_succ _, fun _ _ => rfl, fun q hq _ => blocks_newBlock_of_ne (Nat.ne_of_lt hq)⟩
  have hlisted : named.ChildrenAt this p cells := by
    have hp : p < middle.top := hscoped'.blocks_lt hmiddle.block
    have hblock : named.blocks p = some (.list ((cells ++ []).map Cell.addr)) := by
      rw [List.append_nil, ← hmiddle.block]
      exact blocks_newBlock_of_ne (Nat.ne_of_lt hp)
    have hsame := hmiddle.of_extends hscoped' hextends hblock fun _ h => (nomatch h)
    rwa [List.append_nil] at hsame
  have htext : named.textAt (some middle.top) = some ((some name).getD []) := by
    change (named.blocks middle.top).bind _ = _
    rw [blocks_newBlock_top]
    rfl
  obtain ⟨heap', hpush, hpushed, hextends', hlast, hnew⟩ :=
    hlisted.pushBack hscoped'' htext (iff_of_false (fun h => nomatch h) fun h => nomatch h)
  refine ⟨heap', named.top, ⟨named.top, .leaf (some name), [named.top]⟩, ?_,
    ⟨hpushed, ⟨p, hlast⟩, ?_, ?_, ?_⟩, rfl, rfl⟩
  · rw [XmlHeap.indexName, hensure, Option.bind_eq_bind, Option.bind_some, hnode,
      Option.bind_eq_bind, Option.bind_some, hpointer, hmiddle.childrenAt, Option.bind_eq_bind,
      Option.bind_some, findName_eq name hmiddle.holds, hfind]
    change (XmlHeap.pushBack named this _).bind _ = _
    rw [hpush]
    rfl
  · intro cell hmem
    rw [hextends'.payload hscoped'' (hlisted.holds cell hmem),
      hextends.payload hscoped' (hmiddle.holds cell hmem), hpayload cell hmem]
  · rw [List.flatMap_singleton, hnew]
    exact List.nodup_singleton _
  · rw [List.flatMap_singleton, hnew]
    intro q hq
    rw [List.mem_singleton.mp hq]
    exact htop

end XmlHeap

end CppProjects
