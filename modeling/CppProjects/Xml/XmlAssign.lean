import CppProjects.Xml.XmlClear

/-!
# Assignment of `XML`

`operator=` clears its target and then copies the pointers of its argument.
-/

namespace CppProjects

namespace XmlHeap

open NodeHeap

variable {heap heap' cleared : XmlHeap} {this other addr b p : ℕ} {t t' : XmlTree}
  {footprint footprint' : List ℕ} {xml source : Xml} {text : XmlText} {fuel : ℕ}

/-- After `x = y`, `x.str()` is what `y.str()` was before. -/
def Copies (heap : XmlHeap) (this other : ℕ) : Prop :=
  ∃ source text heap' xml, heap.nodes other = some source ∧
    (∃ fuel, heap.str fuel source = pure text) ∧ (∃ fuel, heap.assign fuel this other = some heap') ∧
    heap'.nodes this = some xml ∧ ∃ fuel, heap'.str fuel xml = pure text

/-! ## Trees in two heaps -/

theorem Holds.exists_pointed (hholds : heap.Holds addr t footprint) (hp : p ∈ payload heap footprint) :
    (heap.blocks p).isSome := by
  obtain ⟨a, ha, xml, hnode, hmem⟩ := mem_payload.mp hp
  obtain ⟨t', footprint', hholds', -, -⟩ := hholds.exists_holds ha
  cases hholds' with
  | element hnode' hname _ htext hattrs hchildren _ =>
      obtain rfl := Option.some.inj (hnode.symm.trans hnode')
      simp only [pointers, List.mem_append, Option.mem_toList] at hmem
      rcases hmem with ((hp | hp) | hp) | hp
      · exact (scalar_of_reads hname htext hattrs (.inl hp)).1
      · exact (scalar_of_reads hname htext hattrs (.inr (.inr hp))).1
      · exact (scalar_of_reads hname htext hattrs (.inr (.inl hp))).1
      · rw [Option.mem_def.mp hp] at hchildren
        exact Option.isSome_of_eq_some (blocks_of_childrenAt hchildren)

theorem textAt_congr {pointer : Option ℕ} (hblocks : ∀ p ∈ pointer, heap'.blocks p = heap.blocks p) :
    heap'.textAt pointer = heap.textAt pointer := by
  cases pointer with
  | none => rfl
  | some p => exact congrArg (·.bind XmlBlock.text?) (hblocks p rfl)

theorem attrsAt_congr {pointer : Option ℕ} (hblocks : ∀ p ∈ pointer, heap'.blocks p = heap.blocks p) :
    heap'.attrsAt pointer = heap.attrsAt pointer := by
  cases pointer with
  | none => rfl
  | some p => exact congrArg (·.bind XmlBlock.entries?) (hblocks p rfl)

theorem childrenAt_congr {pointer : Option ℕ}
    (hblocks : ∀ p ∈ pointer, heap'.blocks p = heap.blocks p) :
    heap'.childrenAt pointer = heap.childrenAt pointer := by
  cases pointer with
  | none => rfl
  | some p => exact congrArg (·.bind XmlBlock.elements?) (hblocks p rfl)

theorem mem_pointers : p ∈ pointers xml ↔ p ∈ xml.mName ∨ p ∈ xml.mText ∨ p ∈ xml.mAttrs ∨ p ∈ xml.mChildren := by
  simp only [pointers, List.mem_append, Option.mem_toList, Option.mem_def, or_assoc]

/-- A node with the same pointers, over children that hold the same trees. -/
theorem Holds.of_children {cells : List Cell} {attrs : OrderedMap XmlText XmlText} {name : Option XmlText}
    (hnode : heap'.nodes addr = some xml) (hname : heap.name xml = some (name.getD []))
    (hnull : xml.mName = none ↔ name = none) (htext : heap.text xml = some text)
    (hattrs : heap.attrsAt xml.mAttrs = some attrs)
    (hchildren : heap.childrenAt xml.mChildren = some (cells.map Cell.addr))
    (hblocks : ∀ p ∈ pointers xml, heap'.blocks p = heap.blocks p)
    (hcells : ∀ cell ∈ cells, heap'.Holds cell.addr cell.tree cell.footprint) :
    heap'.Holds addr (.element name text attrs (cells.map Cell.tree))
      (addr :: cells.flatMap Cell.footprint) := by
  refine .element hnode ?_ hnull ?_ ?_ ?_ hcells
  · exact (textAt_congr fun p hp => hblocks p (mem_pointers.mpr (.inl hp))).trans hname
  · exact (textAt_congr fun p hp => hblocks p (mem_pointers.mpr (.inr (.inl hp)))).trans htext
  · exact (attrsAt_congr fun p hp => hblocks p (mem_pointers.mpr (.inr (.inr (.inl hp))))).trans hattrs
  · exact (childrenAt_congr fun p hp =>
      hblocks p (mem_pointers.mpr (.inr (.inr (.inr hp))))).trans hchildren

/-- A tree is the same in another heap that has the same nodes and the same payload. -/
theorem Holds.transport (hholds : heap.Holds addr t footprint)
    (hnodes : ∀ b ∈ footprint, heap'.nodes b = heap.nodes b)
    (hblocks : ∀ p ∈ payload heap footprint, heap'.blocks p = heap.blocks p) :
    heap'.Holds addr t footprint := by
  induction hholds with
  | @element addr xml text attrs name cells hnode hname hnull htext hattrs hchildren hcells ih =>
      have hpassed : ∀ cell ∈ cells, cell.footprint ⊆ addr :: cells.flatMap Cell.footprint :=
        fun cell hcell b hb => List.mem_cons_of_mem _ (List.mem_flatMap.mpr ⟨cell, hcell, hb⟩)
      rw [payload_cons hnode] at hblocks
      refine .of_children ((hnodes addr List.mem_cons_self).trans hnode) hname hnull htext hattrs hchildren
        (fun p hp => hblocks p (List.mem_append_left _ hp)) fun cell hcell => ?_
      have hbelow : cell.footprint ⊆ cells.flatMap Cell.footprint :=
        fun b hb => List.mem_flatMap.mpr ⟨cell, hcell, hb⟩
      exact ih cell hcell (fun b hb => hnodes b (List.mem_cons_of_mem _ (hbelow hb)))
        fun p hp => hblocks p (List.mem_append_right _ (payload_mono hbelow hp))

/-- The nodes of a tree with names have a name each. -/
theorem Holds.exists_name (hholds : heap.Holds addr t footprint) (hnamed : t.Named)
    (hmem : b ∈ footprint) : ∃ p, heap.Points b p := by
  induction hholds with
  | @element addr xml text attrs name cells hnode hname hnull htext hattrs hchildren hcells ih =>
      obtain ⟨hsome, hall⟩ := hnamed
      rcases List.mem_cons.mp hmem with rfl | hbelow
      · cases hpointer : xml.mName with
        | none =>
            rw [hnull.mp hpointer] at hsome
            cases hsome
        | some p => exact ⟨p, xml, hnode, mem_pointers.mpr (.inl hpointer)⟩
      · obtain ⟨cell, hcell, hb⟩ := List.mem_flatMap.mp hbelow
        exact ih cell hcell (XmlTree.allChildren_iff.mp hall _ (List.mem_map_of_mem hcell)) hb

/-! ## A text shows a tree -/

theorem bind_eq_pure {α β : Type} {program : XmlCall α} {next : α → XmlCall β} {value : β}
    (hbind : program >>= next = pure value) : ∃ first, program = pure first ∧ next first = pure value := by
  cases program with
  | none => cases hbind
  | some outcome =>
      cases outcome with
      | error e => cases hbind
      | ok first => exact ⟨first, rfl, hbind⟩

theorem lift_eq_pure {α : Type} {read : Option α} {value : α}
    (hread : (read : XmlCall α) = pure value) : read = some value := by
  cases read with
  | none => cases hread
  | some first =>
      obtain rfl := Except.ok.inj (Option.some.inj hread)
      rfl

theorem mapM_eq_pure {α β : Type} {visit : α → XmlCall β} {l : List α} {values : List β}
    (hvisit : l.mapM visit = pure values) {x : α} (hmem : x ∈ l) : ∃ value, visit x = pure value := by
  induction l generalizing values with
  | nil => cases hmem
  | cons y l ih =>
      rw [List.mapM_cons] at hvisit
      obtain ⟨first, hfirst, hrest⟩ := bind_eq_pure hvisit
      obtain ⟨others, hothers, -⟩ := bind_eq_pure hrest
      rcases List.mem_cons.mp hmem with rfl | hmem
      · exact ⟨first, hfirst⟩
      · exact ih hothers hmem

theorem exists_cells {elements : List ℕ}
    (hchild : ∀ a ∈ elements, ∃ t footprint, heap.Holds a t footprint) :
    ∃ cells : List Cell, cells.map Cell.addr = elements ∧
      ∀ cell ∈ cells, heap.Holds cell.addr cell.tree cell.footprint := by
  induction elements with
  | nil => exact ⟨[], rfl, fun _ hmem => (nomatch hmem)⟩
  | cons a elements ih =>
      obtain ⟨t, footprint, hholds⟩ := hchild a List.mem_cons_self
      obtain ⟨cells, hcells, hall⟩ := ih fun c hc => hchild c (List.mem_cons_of_mem _ hc)
      refine ⟨⟨a, t, footprint⟩ :: cells, congrArg (a :: ·) hcells, ?_⟩
      exact List.forall_mem_cons.mpr ⟨hholds, hall⟩

/-- Where `str` has a text, there is a tree. -/
theorem holds_of_str (hnode : heap.nodes addr = some xml) (hstr : heap.str fuel xml = pure text) :
    ∃ t footprint, heap.Holds addr t footprint := by
  induction fuel generalizing addr xml text with
  | zero => cases hstr
  | succ fuel ih =>
      rw [XmlHeap.str] at hstr
      by_cases hnull : xml.mName = none
      · rw [if_pos hnull] at hstr
        cases hstr
      · rw [if_neg hnull] at hstr
        obtain ⟨name, hname, hstr⟩ := bind_eq_pure hstr
        obtain ⟨attrs, hattrs, hstr⟩ := bind_eq_pure hstr
        obtain ⟨elements, helements, hstr⟩ := bind_eq_pure hstr
        obtain ⟨texts, htexts, hstr⟩ := bind_eq_pure hstr
        obtain ⟨text', htext, -⟩ := bind_eq_pure hstr
        have hchild : ∀ a ∈ elements, ∃ t footprint, heap.Holds a t footprint := by
          intro a ha
          obtain ⟨value, hvalue⟩ := mapM_eq_pure htexts ha
          obtain ⟨child, hchild, hvalue⟩ := bind_eq_pure hvalue
          exact ih (lift_eq_pure hchild) hvalue
        obtain ⟨cells, rfl, hcells⟩ := exists_cells hchild
        have hsome : xml.mName = none ↔ some name = none := iff_of_false hnull (Option.some_ne_none name)
        have hname' : heap.name xml = some ((some name).getD []) := lift_eq_pure hname
        exact ⟨_, _, .element hnode hname' hsome (lift_eq_pure htext) (lift_eq_pure hattrs)
          (lift_eq_pure helements) hcells⟩

/-! ## The assignment -/

/-- What `clear()` leaves of a tree that has an outcome. -/
theorem Holds.clear_spec (hscoped : heap.Scoped) (hholds : heap.Holds addr t (addr :: footprint))
    (hclear : clear fuel addr heap = some cleared) :
    (payload heap (addr :: footprint)).Nodup ∧ cleared.nodes addr = some null ∧
      (∀ b ∈ footprint, cleared.nodes b = none) ∧
      (∀ b ∉ addr :: footprint, cleared.nodes b = heap.nodes b) ∧
      ∀ p, cleared.blocks p = if p ∈ payload heap (addr :: footprint) then none else heap.blocks p := by
  obtain ⟨hclears, hnull⟩ := hholds.clears hscoped (cleared_refl heap) untouched_nil hclear
  refine ⟨hclears.nodup, hnull, fun b hb => ?_, hclears.frame, hclears.cleared.blocks⟩
  obtain ⟨p, elements, hp, hblock, hmem, -⟩ := hholds.exists_list hb
  exact hclears.cleared.dropped p hp b ⟨_, hblock, hmem⟩

theorem Holds.blocks_of_clear (hscoped : heap.Scoped) (hholds : heap.Holds addr t (addr :: footprint))
    (hclear : clear fuel addr heap = some cleared) (hlive : (cleared.blocks p).isSome) :
    cleared.blocks p = heap.blocks p := by
  obtain ⟨-, -, -, -, hblocks⟩ := hholds.clear_spec hscoped hclear
  rw [hblocks p] at hlive ⊢
  split_ifs at hlive ⊢ with hp
  · cases hlive
  · rfl

theorem assign_eq_some : heap.assign fuel this other = some heap' ↔
    ∃ cleared source, clear fuel this heap = some cleared ∧ cleared.nodes other = some source ∧
      (cleared.nodes this).isSome ∧ heap' = cleared.setNode this source := by
  simp only [assign, Option.bind_eq_bind, Option.bind_eq_some_iff]
  constructor
  · rintro ⟨cleared, hclear, source, hsource, hwrite⟩
    obtain ⟨hlive, rfl⟩ := write_eq_some hwrite
    exact ⟨cleared, source, hclear, hsource, hlive, rfl⟩
  · rintro ⟨cleared, source, hclear, hsource, hlive, rfl⟩
    exact ⟨cleared, hclear, source, hsource, if_pos hlive⟩

variable {below below' : List ℕ}

/-- Where the trees share nothing, the target is the tree of the argument. -/
theorem copies_of_disjoint (hscoped : heap.Scoped) (hthis : heap.Holds this t (this :: below))
    (hother : heap.Holds other t' footprint') (hnamed : t'.Named)
    (hnodup : (payload heap (this :: below)).Nodup)
    (hdisjoint : (payload heap (this :: below)).Disjoint (payload heap footprint')) :
    Copies heap this other := by
  obtain ⟨fuel, cleared, hclear⟩ := (hthis.exists_clear_iff hscoped).mpr hnodup
  obtain ⟨-, hnull, -, hkept, hblocks⟩ := hthis.clear_spec hscoped hclear
  have hapart : ∀ b ∈ footprint', b ∉ this :: below := by
    intro b hb hmem
    obtain ⟨p, hp⟩ := hother.exists_name hnamed hb
    exact hdisjoint (mem_payload.mpr ⟨b, hmem, hp⟩) (mem_payload.mpr ⟨b, hb, hp⟩)
  obtain ⟨source, hsource⟩ := hother.exists_node
  have hread : cleared.nodes other = some source := (hkept other (hapart other hother.mem)).trans hsource
  have hassign : heap.assign fuel this other = some (cleared.setNode this source) :=
    assign_eq_some.mpr ⟨cleared, source, hclear, hread, Option.isSome_of_eq_some hnull, rfl⟩
  have hnodes : ∀ b ∈ footprint', (cleared.setNode this source).nodes b = heap.nodes b := by
    intro b hb
    have hne : b ≠ this := fun heq => hapart b hb (heq ▸ List.mem_cons_self)
    rw [nodes_setNode_of_ne hne, hkept b (hapart b hb)]
  have hblocks' : ∀ p ∈ payload heap footprint', (cleared.setNode this source).blocks p = heap.blocks p := by
    intro p hp
    exact (hblocks p).trans (if_neg fun hmem => hdisjoint hmem hp)
  have hstr := hother.str hsource hnamed (Nat.le_refl _)
  cases hother with
  | @element _ xml text attrs name cells hnode hname hnull htext hattrs hchildren hcells =>
      obtain rfl := Option.some.inj (hsource.symm.trans hnode)
      rw [payload_cons hnode] at hblocks'
      have hcopy : Holds (cleared.setNode this source) this (.element name text attrs (cells.map Cell.tree))
          (this :: cells.flatMap Cell.footprint) := by
        refine .of_children nodes_setNode_self hname hnull htext hattrs hchildren
          (fun p hp => hblocks' p (List.mem_append_left _ hp)) fun cell hcell => ?_
        have hbelow : cell.footprint ⊆ cells.flatMap Cell.footprint :=
          fun b hb => List.mem_flatMap.mpr ⟨cell, hcell, hb⟩
        exact (hcells cell hcell).transport
          (fun b hb => hnodes b (List.mem_cons_of_mem _ (hbelow hb)))
          fun p hp => hblocks' p (List.mem_append_right _ (payload_mono hbelow hp))
      exact ⟨source, _, _, source, hsource, ⟨_, hstr⟩, ⟨_, hassign⟩, nodes_setNode_self,
        _, hcopy.str nodes_setNode_self hnamed (Nat.le_refl _)⟩

/-- A tree after the assignment that does not pass the target was there before. -/
theorem Holds.before (hscoped : heap.Scoped) (hthis : heap.Holds this t (this :: below))
    (hclear : clear fuel this heap = some cleared)
    (hholds : Holds (cleared.setNode this source) addr t' footprint') (hnot : this ∉ footprint') :
    heap.Holds addr t' footprint' ∧ payload heap footprint' =
      payload (cleared.setNode this source) footprint' := by
  obtain ⟨-, -, hgone, hkept, -⟩ := hthis.clear_spec hscoped hclear
  have hnodes : ∀ b ∈ footprint', heap.nodes b = (cleared.setNode this source).nodes b := by
    intro b hb
    have hne : b ≠ this := fun heq => hnot (heq ▸ hb)
    obtain ⟨t'', footprint'', hholds', -, -⟩ := hholds.exists_holds hb
    obtain ⟨xml, hxml⟩ := hholds'.exists_node
    have hold : b ∉ this :: below := by
      intro hmem
      rw [nodes_setNode_of_ne hne, hgone b ((List.mem_cons.mp hmem).resolve_left hne)] at hxml
      cases hxml
    rw [nodes_setNode_of_ne hne, hkept b hold]
  refine ⟨hholds.transport hnodes fun p hp => ?_, ?_⟩
  · exact (hthis.blocks_of_clear hscoped hclear (hholds.exists_pointed hp)).symm
  · exact List.flatMap_congr fun b hb => by rw [hnodes b hb]

/-- Where the target is the tree of the argument, the trees share nothing. -/
theorem disjoint_of_copies (hscoped : heap.Scoped) (hthis : heap.Holds this t (this :: below))
    (hother : heap.Holds other t' footprint') (hcopies : Copies heap this other) :
    (payload heap (this :: below)).Nodup ∧
      (payload heap (this :: below)).Disjoint (payload heap footprint') := by
  obtain ⟨source, text, heap', xml, hsource, -, ⟨fuel, hassign⟩, hnode, ⟨fuel', hstr⟩⟩ := hcopies
  obtain ⟨cleared, source', hclear, hread, -, rfl⟩ := assign_eq_some.mp hassign
  obtain ⟨hnodup, hnull, hgone, hkept, hblocks⟩ := hthis.clear_spec hscoped hclear
  refine ⟨hnodup, ?_⟩
  obtain rfl : source' = xml := Option.some.inj (nodes_setNode_self.symm.trans hnode)
  -- neither the target nor a node below it was the argument
  have hne : other ≠ this := by
    rintro rfl
    obtain rfl := Option.some.inj (hnull.symm.trans hread)
    cases fuel' with
    | zero => cases hstr
    | succ fuel' => cases hstr
  have hout : other ∉ this :: below := by
    intro hmem
    rw [hgone other ((List.mem_cons.mp hmem).resolve_left hne)] at hread
    cases hread
  obtain rfl := Option.some.inj (((hkept other hout).symm.trans hread).symm.trans hsource)
  -- and what it points to is there afterwards
  suffices hlive : ∀ p ∈ payload heap footprint', (cleared.blocks p).isSome by
    intro p hp hp'
    have hsome := hlive p hp'
    rw [hblocks p, if_pos hp] at hsome
    cases hsome
  obtain ⟨t₂, footprint₂, hcopy⟩ := holds_of_str hnode hstr
  have hpointed : ∀ p ∈ payload (cleared.setNode this source') footprint₂, (cleared.blocks p).isSome :=
    fun p hp => hcopy.exists_pointed hp
  cases hother with
  | @element _ xml' text' attrs' name' cells' hnode' _ _ _ _ hchildren' hcells' =>
      obtain rfl := Option.some.inj (hsource.symm.trans hnode')
      cases hcopy with
      | @element _ xml₂ text₂ attrs₂ name₂ cells₂ hnode₂ hname₂ hnull₂ htext₂ hattrs₂ hchildren₂
          hcells₂ =>
          obtain rfl := Option.some.inj (nodes_setNode_self.symm.trans hnode₂)
          have hbelow := (Holds.element hnode₂ hname₂ hnull₂ htext₂ hattrs₂ hchildren₂
            hcells₂).not_mem_below
          rw [payload_cons hnode₂] at hpointed
          have hsame : childrenAt cleared source'.mChildren = heap.childrenAt source'.mChildren :=
            childrenAt_congr fun p hp => hthis.blocks_of_clear hscoped hclear
              (hpointed p (List.mem_append_left _ (mem_pointers.mpr (.inr (.inr (.inr hp))))))
          have hread₂ : childrenAt cleared source'.mChildren = some (cells₂.map Cell.addr) := hchildren₂
          have haddrs : cells'.map Cell.addr = cells₂.map Cell.addr :=
            Option.some.inj (hchildren'.symm.trans (hsame.symm.trans hread₂))
          rw [payload_cons hnode']
          intro p hp
          rcases List.mem_append.mp hp with hown | hrest
          · exact hpointed p (List.mem_append_left _ hown)
          · obtain ⟨a, ha, hpoints⟩ := mem_payload.mp hrest
            obtain ⟨cell', hcell', ha⟩ := List.mem_flatMap.mp ha
            obtain ⟨cell₂, hcell₂, heq⟩ := List.mem_map.mp (haddrs ▸ List.mem_map_of_mem hcell')
            have hnot : this ∉ cell₂.footprint :=
              fun hmem => hbelow (List.mem_flatMap.mpr ⟨cell₂, hcell₂, hmem⟩)
            obtain ⟨hbefore, hpayload⟩ := Holds.before hscoped hthis hclear (hcells₂ cell₂ hcell₂) hnot
            rw [heq] at hbefore
            rw [(hcells' cell' hcell').footprint_unique hbefore] at ha
            exact (hcells₂ cell₂ hcell₂).exists_pointed
              (hpayload ▸ mem_payload.mpr ⟨a, ha, hpoints⟩)

/-- Assignment copies the right-hand side exactly if the target and the argument share no
string, map or list, and no two nodes of the target do. -/
theorem copies_iff (hscoped : heap.Scoped) (hthis : heap.Holds this t footprint)
    (hother : heap.Holds other t' footprint') (hnamed : t'.Named) :
    Copies heap this other ↔ (payload heap footprint).Nodup ∧
      (payload heap footprint).Disjoint (payload heap footprint') := by
  obtain ⟨below, rfl⟩ := hthis.exists_below
  constructor
  · exact disjoint_of_copies hscoped hthis hother
  · rintro ⟨hnodup, hdisjoint⟩
    exact copies_of_disjoint hscoped hthis hother hnamed hnodup hdisjoint

theorem scoped_ofName (hscoped : heap.Scoped) (name : XmlText) : Scoped (ofName heap name) := by
  have hblock : Scoped (heap.newBlock (.string name)) :=
    hscoped.newBlock List.nodup_nil (fun _ hmem => (nomatch hmem)) (fun _ hmem => (nomatch hmem))
      fun _ _ hmem => (nomatch hmem)
  refine hblock.newRoot fun p hp => ?_
  obtain rfl := List.mem_singleton.mp hp
  exact Nat.lt_succ_self heap.top

/-- `XML a("a"), b("b"); a = b;` -/
theorem copies_unrelated : Copies (ofName (ofName NodeHeap.empty ['a']) ['b']) 1 3 := by
  refine (copies_iff (scoped_ofName (scoped_ofName scoped_empty _) _)
    (holds_childless (show (ofName (ofName NodeHeap.empty ['a']) ['b']).nodes 1 = _ from rfl)
      rfl rfl rfl rfl rfl)
    (holds_childless (show (ofName (ofName NodeHeap.empty ['a']) ['b']).nodes 3 = _ from rfl)
      rfl rfl rfl rfl rfl) ⟨rfl, trivial⟩).mpr ⟨?_, ?_⟩
  · exact List.nodup_singleton 0
  · intro p hp hp'
    obtain rfl := List.mem_singleton.mp hp
    exact absurd (List.mem_singleton.mp hp') (by decide)

/-- `XML a("a"); a = a;` -/
theorem not_copies_self : ¬ Copies (ofName NodeHeap.empty ['a']) 1 1 := by
  intro hcopies
  have hholds : Holds (ofName NodeHeap.empty ['a']) 1 (.element (some ['a']) [] OrderedMap.empty []) [1] :=
    holds_childless rfl rfl rfl rfl rfl rfl
  have hdisjoint := (disjoint_of_copies (scoped_ofName scoped_empty _) hholds hholds hcopies).2
  exact hdisjoint List.mem_cons_self List.mem_cons_self

/-- A tree is not disjoint from itself, nor from a tree inside it. -/
theorem not_copies_descendant (hscoped : heap.Scoped) (hthis : heap.Holds this t footprint)
    (hother : heap.Holds other t' footprint') (hnamed : t'.Named) (hmem : other ∈ footprint) :
    ¬ Copies heap this other := by
  intro hcopies
  obtain ⟨below, rfl⟩ := hthis.exists_below
  obtain ⟨p, hp⟩ := hother.exists_name hnamed hother.mem
  exact (disjoint_of_copies hscoped hthis hother hcopies).2 (mem_payload.mpr ⟨other, hmem, hp⟩)
    (mem_payload.mpr ⟨other, hother.mem, hp⟩)

end XmlHeap

end CppProjects
