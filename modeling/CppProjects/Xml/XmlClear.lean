import CppProjects.Xml.XmlTree

/-!
# What `XML::clear` deletes

`clear` deletes the payload of every node it passes, and the nodes below the first one
go with the lists that hold them.  It has an outcome exactly if no payload is met twice.
-/

namespace CppProjects

namespace XmlHeap

open NodeHeap

variable {heap heap' : XmlHeap} {addr b p : ℕ} {t t' : XmlTree} {footprint footprint' below : List ℕ}
  {xml : Xml}

/-- The strings, the maps and the lists of some nodes. -/
def payload (heap : XmlHeap) (footprint : List ℕ) : List ℕ :=
  footprint.flatMap fun addr => (heap.nodes addr).elim [] pointers

/-! ## Footprints -/

theorem payload_append (left right : List ℕ) :
    payload heap (left ++ right) = payload heap left ++ payload heap right :=
  List.flatMap_append

theorem payload_cons (hnode : heap.nodes addr = some xml) (rest : List ℕ) :
    payload heap (addr :: rest) = pointers xml ++ payload heap rest := by
  rw [payload, List.flatMap_cons, hnode]
  rfl

theorem mem_payload : p ∈ payload heap footprint ↔ ∃ a ∈ footprint, heap.Points a p := by
  rw [payload, List.mem_flatMap]
  refine exists_congr fun a => and_congr_right fun _ => ?_
  cases hnode : heap.nodes a with
  | none => simp [Points, hnode]
  | some xml => simp [Points, hnode]

theorem payload_mono (hsubset : footprint' ⊆ footprint) :
    payload heap footprint' ⊆ payload heap footprint := by
  intro p hmem
  obtain ⟨a, ha, hpoints⟩ := mem_payload.mp hmem
  exact mem_payload.mpr ⟨a, hsubset ha, hpoints⟩

theorem Holds.exists_below (hholds : heap.Holds addr t footprint) :
    ∃ below, footprint = addr :: below := by
  cases hholds
  exact ⟨_, rfl⟩

/-- The nodes of a list are passed. -/
theorem mem_flatMap_of_mem_map {cells : List Cell}
    (hcells : ∀ cell ∈ cells, heap.Holds cell.addr cell.tree cell.footprint)
    (hb : b ∈ cells.map Cell.addr) : b ∈ cells.flatMap Cell.footprint := by
  obtain ⟨cell, hcell, rfl⟩ := List.mem_map.mp hb
  exact List.mem_flatMap.mpr ⟨cell, hcell, (hcells cell hcell).mem⟩

theorem flatMap_footprint_eq {cells cells' : List Cell}
    (haddrs : cells.map Cell.addr = cells'.map Cell.addr)
    (hsame : ∀ cell ∈ cells, ∀ cell' ∈ cells', cell.addr = cell'.addr →
      cell.footprint = cell'.footprint) :
    cells.flatMap Cell.footprint = cells'.flatMap Cell.footprint := by
  induction cells generalizing cells' with
  | nil => rw [List.map_eq_nil_iff.mp haddrs.symm]
  | cons cell cells ih =>
      cases cells' with
      | nil => cases haddrs
      | cons cell' cells' =>
          obtain ⟨haddr, hrest⟩ := List.cons.inj haddrs
          have hhead := hsame cell List.mem_cons_self cell' List.mem_cons_self haddr
          have htail := ih hrest fun c hc c' hc' =>
            hsame c (List.mem_cons_of_mem _ hc) c' (List.mem_cons_of_mem _ hc')
          rw [List.flatMap_cons, List.flatMap_cons, hhead, htail]

theorem Holds.footprint_unique (hholds : heap.Holds addr t footprint)
    (hholds' : heap.Holds addr t' footprint') : footprint = footprint' := by
  induction hholds generalizing t' footprint' with
  | @element addr xml text attrs name cells hnode _ _ _ _ hchildren _ ih =>
      cases hholds' with
      | @element _ xml' text' attrs' name' cells' hnode' _ _ _ _ hchildren' hcells' =>
          obtain rfl := Option.some.inj (hnode.symm.trans hnode')
          have haddrs := Option.some.inj (hchildren.symm.trans hchildren')
          rw [flatMap_footprint_eq haddrs fun cell hcell cell' hcell' heq =>
            ih cell hcell (heq ▸ hcells' cell' hcell')]

/-- What is passed from a node on is a tree of its own. -/
theorem Holds.exists_holds (hholds : heap.Holds addr t footprint) (hmem : b ∈ footprint) :
    ∃ t' footprint', heap.Holds b t' footprint' ∧ footprint' ⊆ footprint ∧
      footprint'.length ≤ footprint.length := by
  induction hholds with
  | @element addr xml text attrs name cells hnode hname hnull htext hattrs hchildren hcells ih =>
      rcases List.mem_cons.mp hmem with rfl | hbelow
      · exact ⟨_, _, .element hnode hname hnull htext hattrs hchildren hcells, List.Subset.refl _,
          Nat.le_refl _⟩
      · obtain ⟨cell, hcell, hb⟩ := List.mem_flatMap.mp hbelow
        obtain ⟨t', footprint', hholds', hsubset, hlength⟩ := ih cell hcell hb
        refine ⟨t', footprint', hholds', fun c hc => ?_, ?_⟩
        · exact List.mem_cons_of_mem _ (List.mem_flatMap.mpr ⟨cell, hcell, hsubset hc⟩)
        · have hle := length_le_flatMap hcell
          rw [List.length_cons]
          omega

/-- No node is passed below itself. -/
theorem Holds.not_mem_below (hholds : heap.Holds addr t (addr :: below)) : addr ∉ below := by
  intro hmem
  cases hholds with
  | @element _ xml text attrs name cells hnode hname hnull htext hattrs hchildren hcells =>
      obtain ⟨cell, hcell, haddr⟩ := List.mem_flatMap.mp hmem
      obtain ⟨t', footprint', hholds', -, hlength⟩ := (hcells cell hcell).exists_holds haddr
      have hsame := hholds'.footprint_unique (.element hnode hname hnull htext hattrs hchildren hcells)
      have hle := length_le_flatMap hcell
      rw [hsame, List.length_cons] at hlength
      omega

/-- A node below another is in a list that is passed, with all that it holds. -/
theorem Holds.exists_list (hholds : heap.Holds addr t (addr :: below)) (hmem : b ∈ below) :
    ∃ p elements, p ∈ payload heap (addr :: below) ∧ heap.blocks p = some (.list elements) ∧
      b ∈ elements ∧ elements ⊆ below := by
  generalize hfootprint : addr :: below = footprint at hholds
  induction hholds generalizing below with
  | @element addr xml text attrs name cells hnode hname hnull htext hattrs hchildren hcells ih =>
      obtain rfl := (List.cons.inj hfootprint).2
      obtain ⟨cell, hcell, hb⟩ := List.mem_flatMap.mp hmem
      obtain ⟨rest, hrest⟩ := (hcells cell hcell).exists_below
      have hsubset : ∀ c ∈ cell.footprint, c ∈ cells.flatMap Cell.footprint :=
        fun c hc => List.mem_flatMap.mpr ⟨cell, hcell, hc⟩
      rw [hrest] at hb
      rcases List.mem_cons.mp hb with rfl | hbelow
      · cases hpointer : xml.mChildren with
        | none =>
            rw [hpointer] at hchildren
            have hnil := List.map_eq_nil_iff.mp (Option.some.inj hchildren).symm
            rw [hnil] at hcell
            cases hcell
        | some p =>
            rw [hpointer] at hchildren
            refine ⟨p, cells.map Cell.addr, ?_, blocks_of_childrenAt hchildren,
              List.mem_map_of_mem hcell, fun c hc => ?_⟩
            · rw [payload_cons hnode]
              exact List.mem_append_left _ (by simp [pointers, hpointer])
            · obtain ⟨child, hchild, rfl⟩ := List.mem_map.mp hc
              exact List.mem_flatMap.mpr ⟨child, hchild, (hcells child hchild).mem⟩
      · obtain ⟨p, elements, hp, hblock, hmem', helements⟩ := ih cell hcell hbelow hrest.symm
        refine ⟨p, elements, ?_, hblock, hmem', fun c hc => ?_⟩
        · exact payload_mono (fun c hc => List.mem_cons_of_mem _ (hsubset c hc)) hp
        · exact hsubset c (hrest ▸ List.mem_cons_of_mem _ (helements hc))

/-- Two nodes of one list: what they share below them is in lists that the first passes. -/
structure Aside (heap : XmlHeap) (cell cell' : Cell) : Prop where
  apart : cell'.addr ∉ cell.footprint
  shared : ∀ b ∈ cell'.footprint, b ∈ cell.footprint →
    ∃ p ∈ payload heap cell.footprint, heap.Contains p b

theorem pairwise_aside (hscoped : heap.Scoped) {cells : List Cell}
    (hblock : heap.blocks p = some (.list (cells.map Cell.addr)))
    (hcells : ∀ cell ∈ cells, heap.Holds cell.addr cell.tree cell.footprint) :
    cells.Pairwise (Aside heap) := by
  have hnodup : (cells.map Cell.addr).Nodup := hscoped.nodup hblock
  have hlisted : ∀ cell ∈ cells, heap.Contains p cell.addr :=
    fun cell hcell => ⟨_, hblock, List.mem_map_of_mem hcell⟩
  have hnot : ∀ cell ∈ cells, ∀ cell' ∈ cells, cell.addr ≠ cell'.addr → cell'.addr ∉ cell.footprint := by
    intro cell hcell cell' hcell' hne hmem
    obtain ⟨below, hbelow⟩ := (hcells cell hcell).exists_below
    have hholds := hcells cell hcell
    rw [hbelow] at hholds hmem
    have hmem' := (List.mem_cons.mp hmem).resolve_left (Ne.symm hne)
    obtain ⟨q, elements, -, hblock', hmem'', hsubset⟩ := hholds.exists_list hmem'
    -- the list is the one that both nodes are in, so the first node is below itself
    obtain rfl : q = p := hscoped.apart ⟨_, hblock', hmem''⟩ (hlisted cell' hcell')
    obtain rfl : cells.map Cell.addr = elements :=
      XmlBlock.list.inj (Option.some.inj (hblock.symm.trans hblock'))
    exact hholds.not_mem_below (hsubset (List.mem_map_of_mem hcell))
  refine (List.pairwise_map.mp hnodup).imp_of_mem fun {cell cell'} hcell hcell' hne => ?_
  refine ⟨hnot cell hcell cell' hcell' hne, fun b hb' hb => ?_⟩
  obtain ⟨below, hbelow⟩ := (hcells cell hcell).exists_below
  have hholds := hcells cell hcell
  rw [hbelow] at hholds hb ⊢
  rcases List.mem_cons.mp hb with rfl | hmem
  · exact absurd hb' (hnot cell' hcell' cell hcell (Ne.symm hne))
  · obtain ⟨q, elements, hq, hblock', hmem', -⟩ := hholds.exists_list hmem
    exact ⟨q, hq, _, hblock', hmem'⟩

/-! ## One deletion -/

variable {nodes gone : List ℕ} {field : Xml → Option ℕ} {reset : Xml → Xml} {start : XmlHeap}

/-- Of the heap at the start, some nodes were changed and some payloads deleted. -/
structure Cleared (start heap : XmlHeap) (nodes gone : List ℕ) : Prop where
  nodes : ∀ b ∉ nodes, heap.nodes b = start.nodes b
  blocks : ∀ p, heap.blocks p = if p ∈ gone then none else start.blocks p
  dropped : ∀ p ∈ gone, ∀ b, start.Contains p b → heap.nodes b = none

theorem Cleared.congr (hcleared : Cleared start heap nodes gone) {nodes' gone' : List ℕ}
    (hnodes : ∀ b, b ∈ nodes' ↔ b ∈ nodes) (hgone : ∀ p, p ∈ gone' ↔ p ∈ gone) :
    Cleared start heap nodes' gone' where
  nodes := fun b hb => hcleared.nodes b (mt (hnodes b).mpr hb)
  blocks := fun p => by simp only [hcleared.blocks p, hgone]
  dropped := fun p hp => hcleared.dropped p ((hgone p).mp hp)

theorem Cleared.weaken (hcleared : Cleared start heap nodes gone) (more : List ℕ) :
    Cleared start heap (nodes ++ more) gone :=
  ⟨fun b hb => hcleared.nodes b (mt (List.mem_append_left more) hb), hcleared.blocks, hcleared.dropped⟩

theorem Cleared.exists_childrenAt (hcleared : Cleared start heap nodes gone) {pointer : Option ℕ}
    {elements : List ℕ} (hread : XmlHeap.childrenAt start pointer = some elements)
    (hfresh : ∀ p ∈ pointer, p ∉ gone) : XmlHeap.childrenAt heap pointer = some elements := by
  cases pointer with
  | none => exact hread
  | some p =>
      change (heap.blocks p).bind XmlBlock.elements? = _
      rw [hcleared.blocks, if_neg (hfresh p rfl)]
      exact hread

/-- A list that can be read is as it was at the start. -/
theorem Cleared.childrenAt (hcleared : Cleared start heap nodes gone) {pointer : Option ℕ}
    {elements : List ℕ} (hread : childrenAt heap pointer = some elements) :
    XmlHeap.childrenAt start pointer = some elements ∧ ∀ p ∈ pointer, p ∉ gone := by
  cases pointer with
  | none => exact ⟨hread, fun p hp => (nomatch hp)⟩
  | some p =>
      have hblock := blocks_of_childrenAt hread
      have hfresh : p ∉ gone := by
        intro hp
        rw [hcleared.blocks, if_pos hp] at hblock
        cases hblock
      refine ⟨?_, fun q hq => Option.mem_some_iff.mp hq ▸ hfresh⟩
      rw [hcleared.blocks, if_neg hfresh] at hblock
      change (start.blocks p).bind XmlBlock.elements? = _
      rw [hblock]
      rfl

theorem Cleared.setNode (hcleared : Cleared start heap nodes gone) (haddr : addr ∈ nodes)
    (hlive : (heap.nodes addr).isSome) : Cleared start (heap.setNode addr xml) nodes gone where
  nodes := by
    intro b hb
    have hne : b ≠ addr := fun heq => hb (heq ▸ haddr)
    rw [nodes_setNode_of_ne hne]
    exact hcleared.nodes b hb
  blocks := hcleared.blocks
  dropped := by
    intro p hp b hcontains
    have hnone := hcleared.dropped p hp b hcontains
    have hne : b ≠ addr := by
      rintro rfl
      rw [hnone] at hlive
      cases hlive
    rw [nodes_setNode_of_ne hne]
    exact hnone

/-- What is deleted was there, and the nodes it holds go with it. -/
theorem Cleared.delete (hcleared : Cleared start heap nodes gone) {pointer : Option ℕ}
    (hheld : ∀ p ∈ pointer, ∀ b, start.Contains p b → b ∈ nodes)
    (hdelete : delete heap pointer = some heap') : (∀ p ∈ pointer, p ∉ gone) ∧
      Cleared start heap' nodes (gone ++ pointer.toList) ∧
      ∀ b, (∀ p ∈ pointer, ¬ start.Contains p b) → heap'.nodes b = heap.nodes b := by
  cases pointer with
  | none =>
      obtain rfl := Option.some.inj hdelete
      rw [Option.toList_none, List.append_nil]
      exact ⟨fun p hp => (nomatch hp), hcleared, fun _ _ => rfl⟩
  | some p =>
      obtain ⟨block, hblock, hdrop⟩ := Option.bind_eq_some_iff.mp hdelete
      obtain rfl := Option.some.inj hdrop
      have hfresh : p ∉ gone := by
        intro hp
        rw [hcleared.blocks, if_pos hp] at hblock
        cases hblock
      have hstart : start.blocks p = some block := by
        rw [← hblock, hcleared.blocks, if_neg hfresh]
      have hkept : ∀ b, ¬ start.Contains p b → (heap.drop p block).nodes b = heap.nodes b :=
        fun b hnot => nodes_discard_of_notMem fun hmem => hnot ⟨block, hstart, hmem⟩
      refine ⟨fun q hq => Option.mem_some_iff.mp hq ▸ hfresh, ⟨fun b hb => ?_, fun q => ?_, ?_⟩,
        fun b hnot => hkept b (hnot p rfl)⟩
      · rw [hkept b fun hcontains => hb (hheld p rfl b hcontains)]
        exact hcleared.nodes b hb
      · simp only [Option.toList_some, List.mem_append, List.mem_singleton]
        by_cases heq : q = p
        · rw [if_pos (.inr heq), heq]
          exact blocks_drop_self
        · rw [blocks_drop_of_ne heq, hcleared.blocks q]
          simp only [heq, or_false]
      · intro q hq b hcontains
        rw [Option.toList_some, List.mem_append, List.mem_singleton] at hq
        rcases hq with hold | rfl
        · cases hnode : (heap.drop p block).nodes b with
          | none => rfl
          | some xml =>
              have hnone := hcleared.dropped q hold b hcontains
              rw [(nodes_of_discard hnode).2] at hnone
              cases hnone
        · obtain ⟨block', hblock', hmem⟩ := hcontains
          obtain rfl := Option.some.inj (hstart.symm.trans hblock')
          exact nodes_discard_of_mem hmem

theorem Cleared.exists_delete (hcleared : Cleared start heap nodes gone) {pointer : Option ℕ}
    (hlive : ∀ p ∈ pointer, p ∉ gone ∧ (start.blocks p).isSome) :
    ∃ heap', XmlHeap.delete heap pointer = some heap' := by
  cases pointer with
  | none => exact ⟨heap, rfl⟩
  | some p =>
      obtain ⟨hfresh, hsome⟩ := hlive p rfl
      obtain ⟨block, hblock⟩ := Option.isSome_iff_exists.mp hsome
      refine ⟨heap.drop p block, ?_⟩
      rw [XmlHeap.delete, hcleared.blocks p, if_neg hfresh, hblock]
      rfl

/-- A field of a node is deleted and reset. -/
theorem Cleared.clearField (hcleared : Cleared start heap nodes gone)
    (hnode : heap.nodes addr = some xml) (haddr : addr ∈ nodes)
    (hheld : ∀ p ∈ field xml, ∀ b, start.Contains p b → b ∈ nodes)
    (hclear : clearField heap addr field reset = some heap') :
    (∀ p ∈ field xml, p ∉ gone) ∧ Cleared start heap' nodes (gone ++ (field xml).toList) ∧
      heap'.nodes addr = some (reset xml) ∧
      ∀ b, b ≠ addr → (∀ p ∈ field xml, ¬ start.Contains p b) → heap'.nodes b = heap.nodes b := by
  rw [XmlHeap.clearField, hnode, Option.bind_eq_bind, Option.bind_some] at hclear
  obtain ⟨middle, hdelete, hwrite⟩ := Option.bind_eq_some_iff.mp hclear
  obtain ⟨hlive, rfl⟩ := write_eq_some hwrite
  obtain ⟨hfresh, hcleared', hframe⟩ := hcleared.delete hheld hdelete
  refine ⟨hfresh, hcleared'.setNode haddr hlive, nodes_setNode_self, fun b hne hnot => ?_⟩
  rw [nodes_setNode_of_ne hne]
  exact hframe b hnot

theorem Cleared.exists_clearField (hcleared : Cleared start heap nodes gone)
    (field : Xml → Option ℕ) (reset : Xml → Xml) (hnode : heap.nodes addr = some xml) (haddr : addr ∈ nodes)
    (hheld : ∀ p ∈ field xml, ∀ b, start.Contains p b → b ∈ nodes ∧ b ≠ addr)
    (hlive : ∀ p ∈ field xml, p ∉ gone ∧ (start.blocks p).isSome) :
    ∃ heap', XmlHeap.clearField heap addr field reset = some heap' ∧
      Cleared start heap' nodes (gone ++ (field xml).toList) ∧ heap'.nodes addr = some (reset xml) := by
  have hheld' : ∀ p ∈ field xml, ∀ b, start.Contains p b → b ∈ nodes := fun p hp b hb => (hheld p hp b hb).1
  obtain ⟨middle, hdelete⟩ := hcleared.exists_delete hlive
  obtain ⟨-, -, hframe⟩ := hcleared.delete hheld' hdelete
  have hkept : middle.nodes addr = some xml :=
    (hframe addr fun p hp hcontains => (hheld p hp addr hcontains).2 rfl).trans hnode
  have hclear : XmlHeap.clearField heap addr field reset = some (middle.setNode addr (reset xml)) := by
    rw [XmlHeap.clearField, hnode, Option.bind_eq_bind, Option.bind_some, hdelete]
    exact if_pos (Option.isSome_of_eq_some hkept)
  obtain ⟨-, hcleared', hnode', -⟩ := hcleared.clearField hnode haddr hheld' hclear
  exact ⟨_, hclear, hcleared', hnode'⟩

/-! ## A tree is cleared -/

/-- `heap'` is what `clear` leaves of `heap` where it passes a footprint. -/
structure Clears (start heap heap' : XmlHeap) (nodes gone footprint : List ℕ) : Prop where
  nodup : (payload start footprint).Nodup
  fresh : ∀ p ∈ payload start footprint, p ∉ gone
  cleared : Cleared start heap' (nodes ++ footprint) (gone ++ payload start footprint)
  frame : ∀ b ∉ footprint, heap'.nodes b = heap.nodes b

/-- Before a node is cleared, what was changed below it is in deleted lists. -/
structure Untouched (start : XmlHeap) (nodes gone : List ℕ) (addr : ℕ) (footprint : List ℕ) : Prop where
  apart : addr ∉ nodes
  dropped : ∀ b ∈ footprint, b ∈ nodes → ∃ p ∈ gone, start.Contains p b

theorem Untouched.aside {cell cell' : Cell}
    (huntouched : Untouched start nodes gone cell'.addr cell'.footprint)
    (haside : Aside start cell cell') : Untouched start (nodes ++ cell.footprint)
      (gone ++ payload start cell.footprint) cell'.addr cell'.footprint where
  apart := fun hmem => (List.mem_append.mp hmem).elim huntouched.apart haside.apart
  dropped := by
    intro b hb hmem
    rcases List.mem_append.mp hmem with hold | hnew
    · obtain ⟨p, hp, hcontains⟩ := huntouched.dropped b hb hold
      exact ⟨p, List.mem_append_left _ hp, hcontains⟩
    · obtain ⟨p, hp, hcontains⟩ := haside.shared b hb hnew
      exact ⟨p, List.mem_append_right _ hp, hcontains⟩

/-- A child of a node, once the node was changed and its strings and its map deleted. -/
theorem Untouched.child {cells : List Cell}
    (huntouched : Untouched start nodes gone addr (addr :: cells.flatMap Cell.footprint)) (hscoped : start.Scoped) (hbelow : addr ∉ cells.flatMap Cell.footprint) {cell : Cell}
    (hcell : cell ∈ cells) (hmem : cell.addr ∈ cell.footprint) {pointer : Option ℕ}
    (hlisted : ∃ p ∈ pointer, start.Contains p cell.addr) {gone' : List ℕ} (hgone : gone ⊆ gone')
    (hfresh : ∀ p ∈ pointer, p ∉ gone') :
    Untouched start (nodes ++ [addr]) gone' cell.addr cell.footprint := by
  have hpassed : ∀ b ∈ cell.footprint, b ∈ cells.flatMap Cell.footprint :=
    fun b hb => List.mem_flatMap.mpr ⟨cell, hcell, hb⟩
  refine ⟨fun hchanged => ?_, fun b hb hchanged => ?_⟩
  · rcases List.mem_append.mp hchanged with hold | hself
    · obtain ⟨p, hp, hcontains⟩ := huntouched.dropped _ (List.mem_cons_of_mem _ (hpassed _ hmem)) hold
      obtain ⟨q, hq, hcontains'⟩ := hlisted
      obtain rfl := hscoped.apart hcontains hcontains'
      exact hfresh p hq (hgone hp)
    · exact hbelow (List.mem_singleton.mp hself ▸ hpassed _ hmem)
  · rcases List.mem_append.mp hchanged with hold | hself
    · obtain ⟨p, hp, hcontains⟩ := huntouched.dropped b (List.mem_cons_of_mem _ (hpassed b hb)) hold
      exact ⟨p, hgone hp, hcontains⟩
    · exact absurd (List.mem_singleton.mp hself ▸ hpassed b hb) hbelow

theorem clears_children {fuel : ℕ} {cells : List Cell}
    (hclears : ∀ cell ∈ cells, ∀ {heap heap' : XmlHeap} {nodes gone : List ℕ},
      Cleared start heap nodes gone → Untouched start nodes gone cell.addr cell.footprint →
      clear fuel cell.addr heap = some heap' → Clears start heap heap' nodes gone cell.footprint)
    (haside : cells.Pairwise (Aside start))
    (huntouched : ∀ cell ∈ cells, Untouched start nodes gone cell.addr cell.footprint)
    (hcleared : Cleared start heap nodes gone)
    (hfold : (cells.map Cell.addr).foldlM (fun heap addr => clear fuel addr heap) heap = some heap') :
    Clears start heap heap' nodes gone (cells.flatMap Cell.footprint) := by
  induction cells generalizing heap nodes gone with
  | nil =>
      obtain rfl := Option.some.inj hfold
      refine ⟨List.nodup_nil, fun p hp => (nomatch hp), ?_, fun _ _ => rfl⟩
      rwa [List.flatMap_nil, payload, List.flatMap_nil, List.append_nil, List.append_nil]
  | cons cell cells ih =>
      rw [List.map_cons, List.foldlM_cons] at hfold
      obtain ⟨middle, hclear, hfold⟩ := Option.bind_eq_some_iff.mp hfold
      obtain ⟨hhead, hrest⟩ := List.pairwise_cons.mp haside
      have hfirst := hclears cell List.mem_cons_self hcleared
        (huntouched cell List.mem_cons_self) hclear
      have hothers := ih (fun other hmem => hclears other (List.mem_cons_of_mem _ hmem)) hrest
        (fun other hmem => (huntouched other (List.mem_cons_of_mem _ hmem)).aside (hhead other hmem))
        hfirst.cleared hfold
      have hpayload : payload start (cell.footprint ++ cells.flatMap Cell.footprint) = _ :=
        payload_append _ _
      rw [List.flatMap_cons]
      refine ⟨?_, ?_, ?_, fun b hb => ?_⟩
      · rw [hpayload, List.nodup_append']
        exact ⟨hfirst.nodup, hothers.nodup, fun p hp hp' =>
          hothers.fresh p hp' (List.mem_append_right _ hp)⟩
      · intro p hp hgone
        rw [hpayload] at hp
        rcases List.mem_append.mp hp with hp | hp
        · exact hfirst.fresh p hp hgone
        · exact hothers.fresh p hp (List.mem_append_left _ hgone)
      · rw [hpayload, ← List.append_assoc, ← List.append_assoc]
        exact hothers.cleared
      · rw [hothers.frame b fun hmem => hb (List.mem_append_right _ hmem),
          hfirst.frame b fun hmem => hb (List.mem_append_left _ hmem)]

theorem clear_eq_some {fuel : ℕ} : clear (fuel + 1) addr heap = some heap' ↔
    ∃ first second third xml elements fourth,
      clearField heap addr Xml.mName (fun xml => { xml with mName := none }) = some first ∧
      clearField first addr Xml.mAttrs (fun xml => { xml with mAttrs := none }) = some second ∧
      clearField second addr Xml.mText (fun xml => { xml with mText := none }) = some third ∧
      third.nodes addr = some xml ∧ childrenAt third xml.mChildren = some elements ∧
      elements.foldlM (fun heap addr => clear fuel addr heap) third = some fourth ∧
      clearField fourth addr Xml.mChildren (fun xml => { xml with mChildren := none }) = some heap' := by
  simp only [clear, Option.bind_eq_bind, Option.bind_eq_some_iff]
  constructor
  · rintro ⟨first, hfirst, second, hsecond, third, hthird, xml, hxml, elements, helements, fourth,
      hfourth, hlast⟩
    exact ⟨first, second, third, xml, elements, fourth, hfirst, hsecond, hthird, hxml, helements,
      hfourth, hlast⟩
  · rintro ⟨first, second, third, xml, elements, fourth, hfirst, hsecond, hthird, hxml, helements,
      hfourth, hlast⟩
    exact ⟨first, hfirst, second, hsecond, third, hthird, xml, hxml, elements, helements, fourth,
      hfourth, hlast⟩

/-- The payload of a node and of what is below it, in the order in which it is deleted. -/
theorem nodup_pointers_append {gone rest : List ℕ} {name text attrs children : Option ℕ} :
    ((name.toList ++ text.toList ++ attrs.toList ++ children.toList ++ rest).Nodup ∧
      ∀ p ∈ name.toList ++ text.toList ++ attrs.toList ++ children.toList ++ rest, p ∉ gone) ↔
    (∀ p ∈ name, p ∉ gone) ∧ (∀ p ∈ attrs, p ∉ gone ++ name.toList) ∧
      (∀ p ∈ text, p ∉ gone ++ name.toList ++ attrs.toList) ∧
      (rest.Nodup ∧ ∀ p ∈ rest, p ∉ gone ++ name.toList ++ attrs.toList ++ text.toList) ∧
      ∀ p ∈ children, p ∉ gone ++ name.toList ++ attrs.toList ++ text.toList ++ rest := by
  cases name <;> cases text <;> cases attrs <;> cases children <;> simp <;> grind

/-- A string or a map is there, and no node is in it. -/
theorem scalar_of_reads {text : XmlText} {attrs : OrderedMap XmlText XmlText} {name : XmlText}
    (hname : start.name xml = some name) (htext : start.text xml = some text)
    (hattrs : start.attrsAt xml.mAttrs = some attrs)
    (hp : p ∈ xml.mName ∨ p ∈ xml.mAttrs ∨ p ∈ xml.mText) :
    (start.blocks p).isSome ∧ ∀ b, ¬ start.Contains p b := by
  have hnone : ∀ {block : XmlBlock}, start.blocks p = some block → block.children = [] →
      (start.blocks p).isSome ∧ ∀ b, ¬ start.Contains p b := by
    intro block hblock hchildren
    refine ⟨Option.isSome_of_eq_some hblock, fun b => ?_⟩
    rintro ⟨block', hblock', hmem⟩
    obtain rfl := Option.some.inj (hblock.symm.trans hblock')
    change b ∈ block.children at hmem
    rw [hchildren] at hmem
    cases hmem
  rcases hp with hp | hp | hp
  · rw [XmlHeap.name, Option.mem_def.mp hp] at hname
    exact hnone (blocks_of_textAt hname) rfl
  · rw [Option.mem_def.mp hp] at hattrs
    exact hnone (blocks_of_attrsAt hattrs) rfl
  · rw [XmlHeap.text, Option.mem_def.mp hp] at htext
    exact hnone (blocks_of_textAt htext) rfl

theorem aside_of_childrenAt (hscoped : start.Scoped) {pointer : Option ℕ} {cells : List Cell}
    (hchildren : start.childrenAt pointer = some (cells.map Cell.addr))
    (hcells : ∀ cell ∈ cells, start.Holds cell.addr cell.tree cell.footprint) :
    cells.Pairwise (Aside start) := by
  cases pointer with
  | none =>
      rw [List.map_eq_nil_iff.mp (Option.some.inj hchildren).symm]
      exact List.Pairwise.nil
  | some p => exact pairwise_aside hscoped (blocks_of_childrenAt hchildren) hcells

/-- The nodes behind a pointer to a list are in the list. -/
theorem contains_iff_of_childrenAt {pointer : Option ℕ} {elements : List ℕ}
    (hchildren : start.childrenAt pointer = some elements) :
    (∃ p ∈ pointer, start.Contains p b) ↔ b ∈ elements := by
  cases pointer with
  | none =>
      obtain rfl := Option.some.inj hchildren
      exact ⟨fun ⟨p, hp, _⟩ => (nomatch hp), fun hmem => (nomatch hmem)⟩
  | some p =>
      have hblock := blocks_of_childrenAt hchildren
      constructor
      · rintro ⟨q, hq, block, hblock', hmem⟩
        obtain rfl := Option.mem_some_iff.mp hq
        obtain rfl := Option.some.inj (hblock.symm.trans hblock')
        exact hmem
      · exact fun hmem => ⟨p, rfl, _, hblock, hmem⟩

/-- Where `clear` has an outcome, no payload was met twice. -/
theorem Holds.clears (hscoped : start.Scoped) (hholds : start.Holds addr t footprint) :
    ∀ {fuel : ℕ} {heap heap' : XmlHeap} {nodes gone : List ℕ}, Cleared start heap nodes gone →
      Untouched start nodes gone addr footprint → clear fuel addr heap = some heap' →
      Clears start heap heap' nodes gone footprint ∧ heap'.nodes addr = some null := by
  induction hholds with
  | @element addr xml text attrs name cells hnode hname hnull htext hattrs hchildren hcells ih =>
      intro fuel heap heap' nodes gone hcleared huntouched hclear
      cases fuel with
      | zero => cases hclear
      | succ fuel =>
          have hbelow := (Holds.element hnode hname hnull htext hattrs hchildren hcells).not_mem_below
          have hscalar : ∀ {p}, p ∈ xml.mName ∨ p ∈ xml.mAttrs ∨ p ∈ xml.mText →
              ∀ b, ¬ start.Contains p b := fun hp => (scalar_of_reads hname htext hattrs hp).2
          have hself : addr ∈ nodes ++ [addr] := List.mem_append_right _ List.mem_cons_self
          obtain ⟨first, second, third, xml', elements, fourth, hfirst, hsecond, hthird, hxml,
            helements, hfourth, hlast⟩ := clear_eq_some.mp hclear
          have hnow := (hcleared.nodes addr huntouched.apart).trans hnode
          obtain ⟨hfresh₁, hcleared₁, hnode₁, hframe₁⟩ := (hcleared.weaken [addr]).clearField hnow hself
            (fun p hp b hb => absurd hb (hscalar (.inl hp) b)) hfirst
          obtain ⟨hfresh₂, hcleared₂, hnode₂, hframe₂⟩ := hcleared₁.clearField hnode₁ hself
            (fun p hp b hb => absurd hb (hscalar (.inr (.inl hp)) b)) hsecond
          obtain ⟨hfresh₃, hcleared₃, hnode₃, hframe₃⟩ := hcleared₂.clearField hnode₂ hself
            (fun p hp b hb => absurd hb (hscalar (.inr (.inr hp)) b)) hthird
          obtain rfl := Option.some.inj (hnode₃.symm.trans hxml)
          obtain ⟨hread, hfresh₄⟩ := hcleared₃.childrenAt helements
          obtain rfl := Option.some.inj (hchildren.symm.trans hread)
          have hlisted : ∀ b, (∃ p ∈ xml.mChildren, start.Contains p b) ↔ b ∈ cells.map Cell.addr :=
            fun b => contains_iff_of_childrenAt hchildren
          have hpassed : ∀ b ∈ cells.map Cell.addr, b ∈ cells.flatMap Cell.footprint :=
            fun b => mem_flatMap_of_mem_map hcells
          have huntouched' : ∀ cell ∈ cells, Untouched start (nodes ++ [addr])
              (gone ++ xml.mName.toList ++ xml.mAttrs.toList ++ xml.mText.toList) cell.addr
              cell.footprint :=
            fun cell hcell => huntouched.child hscoped hbelow hcell (hcells cell hcell).mem
              ((hlisted _).mpr (List.mem_map_of_mem hcell)) (fun p hp => List.mem_append_left _
                (List.mem_append_left _ (List.mem_append_left _ hp))) hfresh₄
          have hrest := clears_children (fun cell hcell => fun {_ _ _ _} h h' h'' =>
            (ih cell hcell h h' h'').1) (aside_of_childrenAt hscoped hchildren hcells) huntouched'
            hcleared₃ hfourth
          have hnode₄ := (hrest.frame addr hbelow).trans hnode₃
          obtain ⟨hfresh₅, hcleared₅, hnode₅, hframe₅⟩ := hrest.cleared.clearField hnode₄
            (List.mem_append_left _ hself) (fun p hp b hb => List.mem_append_right _
              (hpassed b ((hlisted b).mp ⟨p, hp, hb⟩))) hlast
          have hpayload : payload start (addr :: cells.flatMap Cell.footprint) = _ :=
            payload_cons hnode _
          have hsteps := nodup_pointers_append.mpr ⟨hfresh₁, hfresh₂, hfresh₃, ⟨hrest.nodup, hrest.fresh⟩,
            hfresh₅⟩
          refine ⟨⟨?_, ?_, ?_, ?_⟩, hnode₅⟩
          · rw [hpayload]
            exact hsteps.1
          · rw [hpayload]
            exact hsteps.2
          · rw [hpayload]
            refine hcleared₅.congr (fun b => ?_) fun p => ?_
            · simp
            · simp only [pointers, List.mem_append, or_assoc, or_left_comm, or_comm]
          · intro b hb
            have hne : b ≠ addr := fun heq => hb (heq ▸ List.mem_cons_self)
            have hout : b ∉ cells.flatMap Cell.footprint := mt (List.mem_cons_of_mem _) hb
            rw [hframe₅ b hne fun p hp hb' => hout (hpassed b ((hlisted b).mp ⟨p, hp, hb'⟩)),
              hrest.frame b hout, hframe₃ b hne fun p hp => hscalar (.inr (.inr hp)) b,
              hframe₂ b hne fun p hp => hscalar (.inr (.inl hp)) b,
              hframe₁ b hne fun p hp => hscalar (.inl hp) b]

/-! ## When there is an outcome -/

theorem exists_clears_children {fuel : ℕ} {cells : List Cell}
    (hexists : ∀ cell ∈ cells, ∀ {heap : XmlHeap} {nodes gone : List ℕ},
      Cleared start heap nodes gone → Untouched start nodes gone cell.addr cell.footprint →
      (payload start cell.footprint).Nodup → (∀ p ∈ payload start cell.footprint, p ∉ gone) →
      ∃ heap', clear fuel cell.addr heap = some heap')
    (hclears : ∀ cell ∈ cells, ∀ {heap heap' : XmlHeap} {nodes gone : List ℕ},
      Cleared start heap nodes gone → Untouched start nodes gone cell.addr cell.footprint →
      clear fuel cell.addr heap = some heap' → Clears start heap heap' nodes gone cell.footprint)
    (haside : cells.Pairwise (Aside start))
    (huntouched : ∀ cell ∈ cells, Untouched start nodes gone cell.addr cell.footprint)
    (hcleared : Cleared start heap nodes gone)
    (hnodup : (payload start (cells.flatMap Cell.footprint)).Nodup)
    (hfresh : ∀ p ∈ payload start (cells.flatMap Cell.footprint), p ∉ gone) :
    ∃ heap', (cells.map Cell.addr).foldlM (fun heap addr => clear fuel addr heap) heap = some heap' := by
  induction cells generalizing heap nodes gone with
  | nil => exact ⟨heap, rfl⟩
  | cons cell cells ih =>
      obtain ⟨hhead, hrest⟩ := List.pairwise_cons.mp haside
      rw [List.flatMap_cons, payload_append] at hnodup hfresh
      obtain ⟨hfirst, hothers, hdisjoint⟩ := List.nodup_append'.mp hnodup
      obtain ⟨middle, hclear⟩ := hexists cell List.mem_cons_self hcleared
        (huntouched cell List.mem_cons_self) hfirst fun p hp => hfresh p (List.mem_append_left _ hp)
      have hmiddle := hclears cell List.mem_cons_self hcleared
        (huntouched cell List.mem_cons_self) hclear
      have hfresh' : ∀ p ∈ payload start (cells.flatMap Cell.footprint),
          p ∉ gone ++ payload start cell.footprint := by
        intro p hp hgone
        rcases List.mem_append.mp hgone with hold | hnew
        · exact hfresh p (List.mem_append_right _ hp) hold
        · exact hdisjoint hnew hp
      obtain ⟨heap', hfold⟩ := ih (fun other hmem => hexists other (List.mem_cons_of_mem _ hmem))
        (fun other hmem => hclears other (List.mem_cons_of_mem _ hmem)) hrest
        (fun other hmem => (huntouched other (List.mem_cons_of_mem _ hmem)).aside (hhead other hmem))
        hmiddle.cleared hothers hfresh'
      refine ⟨heap', ?_⟩
      rw [List.map_cons, List.foldlM_cons, hclear]
      exact hfold

/-- Where no payload would be met twice, `clear` has an outcome. -/
theorem Holds.exists_clear (hscoped : start.Scoped) (hholds : start.Holds addr t footprint) :
    ∀ {fuel : ℕ} {heap : XmlHeap} {nodes gone : List ℕ}, Cleared start heap nodes gone →
      Untouched start nodes gone addr footprint → (payload start footprint).Nodup →
      (∀ p ∈ payload start footprint, p ∉ gone) → footprint.length ≤ fuel →
      ∃ heap', clear fuel addr heap = some heap' := by
  induction hholds with
  | @element addr xml text attrs name cells hnode hname hnull htext hattrs hchildren hcells ih =>
      intro fuel heap nodes gone hcleared huntouched hnodup hfresh hfuel
      obtain ⟨fuel, rfl⟩ := Nat.exists_eq_succ_of_ne_zero
        (Nat.ne_of_gt (Nat.lt_of_lt_of_le (Nat.zero_lt_succ _) hfuel))
      have hbelow := (Holds.element hnode hname hnull htext hattrs hchildren hcells).not_mem_below
      have hscalar : ∀ {p}, p ∈ xml.mName ∨ p ∈ xml.mAttrs ∨ p ∈ xml.mText →
          (start.blocks p).isSome ∧ ∀ b, ¬ start.Contains p b := scalar_of_reads hname htext hattrs
      have hself : addr ∈ nodes ++ [addr] := List.mem_append_right _ List.mem_cons_self
      have hlisted : ∀ b, (∃ p ∈ xml.mChildren, start.Contains p b) ↔ b ∈ cells.map Cell.addr :=
        fun b => contains_iff_of_childrenAt hchildren
      have hpassed : ∀ b ∈ cells.map Cell.addr, b ∈ cells.flatMap Cell.footprint :=
        fun b => mem_flatMap_of_mem_map hcells
      rw [payload_cons hnode] at hnodup hfresh
      obtain ⟨hfresh₁, hfresh₂, hfresh₃, ⟨hnodup', hfresh'⟩, hfresh₅⟩ :=
        nodup_pointers_append.mp ⟨hnodup, hfresh⟩
      have hnow := (hcleared.nodes addr huntouched.apart).trans hnode
      obtain ⟨first, hfirst, hcleared₁, hnode₁⟩ := (hcleared.weaken [addr]).exists_clearField Xml.mName
        (fun xml => { xml with mName := none }) hnow hself
        (fun p hp b hb => absurd hb ((hscalar (.inl hp)).2 b))
        fun p hp => ⟨hfresh₁ p hp, (hscalar (.inl hp)).1⟩
      obtain ⟨second, hsecond, hcleared₂, hnode₂⟩ := hcleared₁.exists_clearField Xml.mAttrs
        (fun xml => { xml with mAttrs := none }) hnode₁ hself
        (fun p hp b hb => absurd hb ((hscalar (.inr (.inl hp))).2 b))
        fun p hp => ⟨hfresh₂ p hp, (hscalar (.inr (.inl hp))).1⟩
      obtain ⟨third, hthird, hcleared₃, hnode₃⟩ := hcleared₂.exists_clearField Xml.mText
        (fun xml => { xml with mText := none }) hnode₂ hself
        (fun p hp b hb => absurd hb ((hscalar (.inr (.inr hp))).2 b))
        fun p hp => ⟨hfresh₃ p hp, (hscalar (.inr (.inr hp))).1⟩
      have hfresh₄ : ∀ p ∈ xml.mChildren,
          p ∉ gone ++ xml.mName.toList ++ xml.mAttrs.toList ++ xml.mText.toList :=
        fun p hp hmem => hfresh₅ p hp (List.mem_append_left _ hmem)
      have helements := hcleared₃.exists_childrenAt hchildren hfresh₄
      have huntouched' : ∀ cell ∈ cells, Untouched start (nodes ++ [addr])
          (gone ++ xml.mName.toList ++ xml.mAttrs.toList ++ xml.mText.toList) cell.addr
          cell.footprint :=
        fun cell hcell => huntouched.child hscoped hbelow hcell (hcells cell hcell).mem
          ((hlisted _).mpr (List.mem_map_of_mem hcell)) (fun p hp => List.mem_append_left _
            (List.mem_append_left _ (List.mem_append_left _ hp))) hfresh₄
      have hclears : ∀ cell ∈ cells, ∀ {heap heap' : XmlHeap} {nodes gone : List ℕ},
          Cleared start heap nodes gone → Untouched start nodes gone cell.addr cell.footprint →
          clear fuel cell.addr heap = some heap' → Clears start heap heap' nodes gone cell.footprint :=
        fun cell hcell => fun {_ _ _ _} h h' h'' => ((hcells cell hcell).clears hscoped h h' h'').1
      have haside := aside_of_childrenAt hscoped hchildren hcells
      have hlength : ∀ cell ∈ cells, cell.footprint.length ≤ fuel := by
        intro cell hcell
        have hle := length_le_flatMap hcell
        rw [List.length_cons] at hfuel
        omega
      obtain ⟨fourth, hfourth⟩ := exists_clears_children (fun cell hcell => fun {_ _ _} h h' hn hf =>
        ih cell hcell h h' hn hf (hlength cell hcell)) hclears haside huntouched' hcleared₃ hnodup'
        hfresh'
      have hrest := clears_children hclears haside huntouched' hcleared₃ hfourth
      have hnode₄ := (hrest.frame addr hbelow).trans hnode₃
      obtain ⟨heap', hlast, -, -⟩ := hrest.cleared.exists_clearField Xml.mChildren
        (fun xml => { xml with mChildren := none }) hnode₄ (List.mem_append_left _ hself)
        (fun p hp b hb => by
          have hmem := hpassed b ((hlisted b).mp ⟨p, hp, hb⟩)
          exact ⟨List.mem_append_right _ hmem, fun heq => hbelow (heq ▸ hmem)⟩)
        fun p hp => ⟨hfresh₅ p hp, by
          rw [Option.mem_def.mp hp] at hchildren
          exact Option.isSome_of_eq_some (blocks_of_childrenAt hchildren)⟩
      exact ⟨heap', clear_eq_some.mpr ⟨first, second, third, _, _, fourth, hfirst, hsecond, hthird,
        hnode₃, helements, hfourth, hlast⟩⟩

theorem cleared_refl (start : XmlHeap) : Cleared start start [] [] :=
  ⟨fun _ _ => rfl, fun _ => (if_neg List.not_mem_nil).symm, fun _ hp => (nomatch hp)⟩

theorem untouched_nil : Untouched start [] [] addr footprint :=
  ⟨List.not_mem_nil, fun _ _ hb => (nomatch hb)⟩

/-- `clear()` of a tree has an outcome exactly if no payload is met twice. -/
theorem Holds.exists_clear_iff (hscoped : start.Scoped) (hholds : start.Holds addr t footprint) :
    (∃ fuel heap', clear fuel addr start = some heap') ↔ (payload start footprint).Nodup := by
  constructor
  · rintro ⟨fuel, heap', hclear⟩
    exact (hholds.clears hscoped (cleared_refl start) untouched_nil hclear).1.nodup
  · intro hnodup
    obtain ⟨heap', hclear⟩ := hholds.exists_clear hscoped (cleared_refl start) untouched_nil hnodup
      (fun p _ hp => (nomatch hp)) (Nat.le_refl _)
    exact ⟨_, heap', hclear⟩

end XmlHeap

end CppProjects
