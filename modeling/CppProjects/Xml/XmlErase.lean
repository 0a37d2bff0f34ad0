import CppProjects.Xml.XmlChildren

/-!
# Removing the children of an `XML`

`remove` clears a child and erases it.  Where the child shares nothing with the others, they
keep their trees and their order.
-/

namespace CppProjects

namespace XmlHeap

open NodeHeap

variable {heap heap' : XmlHeap} {this p addr fuel : ℕ} {cells before after : List Cell}
  {cell other : Cell} {xml : Xml} {t : XmlTree} {footprint : List ℕ}

/-! ## `clear` keeps addresses apart -/

theorem scoped_delete {pointer : Option ℕ} (hscoped : heap.Scoped)
    (hdelete : delete heap pointer = some heap') : heap'.Scoped ∧ heap'.top = heap.top := by
  cases pointer with
  | none =>
      obtain rfl := Option.some.inj hdelete
      exact ⟨hscoped, rfl⟩
  | some q =>
      obtain ⟨block, hblock, hdrop⟩ := Option.bind_eq_some_iff.mp hdelete
      obtain rfl := Option.some.inj hdrop
      exact ⟨hscoped.drop hblock, rfl⟩

theorem pointers_subset {xml' : Xml} (hname : ∀ q ∈ xml'.mName, q ∈ xml.mName)
    (htext : ∀ q ∈ xml'.mText, q ∈ xml.mText) (hattrs : ∀ q ∈ xml'.mAttrs, q ∈ xml.mAttrs)
    (hchildren : ∀ q ∈ xml'.mChildren, q ∈ xml.mChildren) : pointers xml' ⊆ pointers xml := by
  intro q hq
  rcases mem_pointers.mp hq with h | h | h | h
  · exact mem_pointers.mpr (.inl (hname q h))
  · exact mem_pointers.mpr (.inr (.inl (htext q h)))
  · exact mem_pointers.mpr (.inr (.inr (.inl (hattrs q h))))
  · exact mem_pointers.mpr (.inr (.inr (.inr (hchildren q h))))

theorem scoped_clearField {field : Xml → Option ℕ} {reset : Xml → Xml} (hscoped : heap.Scoped)
    (hclear : clearField heap addr field reset = some heap')
    (hreset : ∀ xml, pointers (reset xml) ⊆ pointers xml) : heap'.Scoped := by
  obtain ⟨xml, hnode, hclear⟩ := Option.bind_eq_some_iff.mp hclear
  obtain ⟨middle, hdelete, hwrite⟩ := Option.bind_eq_some_iff.mp hclear
  obtain ⟨hscoped', htop⟩ := scoped_delete hscoped hdelete
  obtain ⟨hlive, rfl⟩ := write_eq_some hwrite
  refine hscoped'.setNode hlive fun q hq => ?_
  rw [htop]
  exact hscoped.pointers_lt ⟨xml, hnode, hreset xml hq⟩

theorem scoped_clear (hscoped : heap.Scoped) (hclear : clear fuel addr heap = some heap') :
    heap'.Scoped := by
  induction fuel generalizing addr heap heap' with
  | zero => cases hclear
  | succ fuel ih =>
      have hfold : ∀ {elements : List ℕ} {heap heap' : XmlHeap}, heap.Scoped →
          elements.foldlM (fun heap addr => clear fuel addr heap) heap = some heap' →
          heap'.Scoped := by
        intro elements heap heap' hscoped hfold
        induction elements generalizing heap with
        | nil =>
            obtain rfl := Option.some.inj hfold
            exact hscoped
        | cons b elements ihe =>
            obtain ⟨middle, hfirst, hrest⟩ := Option.bind_eq_some_iff.mp hfold
            exact ihe (ih hscoped hfirst) hrest
      obtain ⟨first, second, third, xml, elements, fourth, hfirst, hsecond, hthird, -, -, hfourth,
        hlast⟩ := clear_eq_some.mp hclear
      have hnull : ∀ {pointer : Option ℕ}, ∀ q ∈ (none : Option ℕ), q ∈ pointer :=
        fun q hq => nomatch hq
      have hself : ∀ {pointer : Option ℕ}, ∀ q ∈ pointer, q ∈ pointer := fun q hq => hq
      have hscoped₁ := scoped_clearField hscoped hfirst
        fun _ => pointers_subset hnull hself hself hself
      have hscoped₂ := scoped_clearField hscoped₁ hsecond
        fun _ => pointers_subset hself hself hnull hself
      have hscoped₃ := scoped_clearField hscoped₂ hthird
        fun _ => pointers_subset hself hnull hself hself
      exact scoped_clearField (hfold hscoped₃ hfourth) hlast
        fun _ => pointers_subset hself hself hself hnull

/-! ## One child -/

/-- Two children that share no payload share no node. -/
theorem ChildrenAt.footprint_disjoint (hchildren : heap.ChildrenAt this p cells)
    (hscoped : heap.Scoped) (hcell : cell ∈ cells) (hother : other ∈ cells)
    (hne : cell.addr ≠ other.addr)
    (hdisjoint : (payload heap cell.footprint).Disjoint (payload heap other.footprint)) :
    cell.footprint.Disjoint other.footprint := by
  intro b hb hb'
  have hlist : ∀ {c : Cell}, c ∈ cells → b ∈ c.footprint → b ≠ c.addr →
      ∃ q ∈ payload heap c.footprint, heap.Contains q b := by
    intro c hc hmem hneq
    obtain ⟨below, hbelow⟩ := (hchildren.holds c hc).exists_below
    have hholds := hchildren.holds c hc
    rw [hbelow] at hholds hmem ⊢
    obtain ⟨q, elements, hq, hblock, hin, -⟩ :=
      hholds.exists_list ((List.mem_cons.mp hmem).resolve_left hneq)
    exact ⟨q, hq, _, hblock, hin⟩
  have hapart : ∀ {c c' : Cell}, c ∈ cells → c' ∈ cells → c.addr ≠ c'.addr → b ∈ c'.footprint →
      b ≠ c.addr := by
    rintro c c' hc hc' hneq hmem rfl
    obtain ⟨q, hq, hcontains⟩ := hlist hc' hmem hneq
    have hlisted : heap.Contains p c.addr := ⟨_, hchildren.block, List.mem_map_of_mem hc⟩
    obtain rfl := hscoped.apart hcontains hlisted
    exact hchildren.notMem_payload hc' hq
  obtain ⟨q, hq, hcontains⟩ := hlist hcell hb (hapart hcell hother hne hb')
  obtain ⟨q', hq', hcontains'⟩ := hlist hother hb' (hapart hother hcell hne.symm hb)
  obtain rfl := hscoped.apart hcontains hcontains'
  exact hdisjoint hq hq'

/-- Some of the children are left, with what they hold. -/
structure Shrunk (heap : XmlHeap) (this p : ℕ) (kept : List Cell) (heap' : XmlHeap) : Prop where
  isScoped : heap'.Scoped
  children : heap'.ChildrenAt this p kept
  kept : ∀ cell ∈ kept, XmlHeap.payload heap' cell.footprint = XmlHeap.payload heap cell.footprint

/-- A node is erased from the list it is in. -/
theorem scoped_unlist {elements : List ℕ} (hscoped : heap.Scoped)
    (hblock : heap.blocks p = some (.list elements)) (addr : ℕ) :
    (heap.setBlock p (XmlBlock.list (elements.erase addr))).Scoped := by
  have hcontains : ∀ b ∈ elements.erase addr, heap.Contains p b :=
    fun b hb => ⟨_, hblock, List.mem_of_mem_erase hb⟩
  have hnodup : elements.Nodup := hscoped.nodup hblock
  refine hscoped.setBlock (hscoped.blocks_lt hblock) (hnodup.erase addr) ?_ ?_ ?_
  · exact fun b hb => hscoped.live (hcontains b hb)
  · exact fun b hb q hq => hscoped.apart hq (hcontains b hb)
  · exact fun b hroot hb => hscoped.roots_apart b hroot p (hcontains b hb)

/-- And it is gone. -/
theorem scoped_erase {elements : List ℕ} (hscoped : heap.Scoped)
    (hblock : heap.blocks p = some (.list elements)) (haddr : addr ∈ elements) :
    ((heap.setBlock p (.list (elements.erase addr))).discard [addr]).Scoped := by
  have hnodup : elements.Nodup := hscoped.nodup hblock
  have hcontains : heap.Contains p addr := ⟨_, hblock, haddr⟩
  refine (scoped_unlist hscoped hblock addr).discard ?_ ?_
  · intro b hb q hq
    obtain rfl := List.mem_singleton.mp hb
    rcases contains_setBlock hq with ⟨-, hin⟩ | ⟨hneq, hold⟩
    · exact hnodup.not_mem_erase hin
    · exact hneq (hscoped.apart hold hcontains)
  · intro b hroot hb
    obtain rfl := List.mem_singleton.mp hb
    exact hscoped.roots_apart b hroot p hcontains

/-- A child that shares nothing with the others is cleared and erased. -/
theorem ChildrenAt.eraseChild (hchildren : heap.ChildrenAt this p (before ++ cell :: after))
    (hscoped : heap.Scoped) (hnodup : (payload heap cell.footprint).Nodup)
    (hdisjoint : ∀ other ∈ before ++ after,
      (payload heap cell.footprint).Disjoint (payload heap other.footprint))
    (hfuel : cell.footprint.length ≤ fuel) :
    ∃ heap', XmlHeap.eraseChild heap fuel p cell.addr = some heap' ∧
      heap.Shrunk this p (before ++ after) heap' := by
  have hcell : cell ∈ before ++ cell :: after := by simp
  have hmem : ∀ other ∈ before ++ after, other ∈ before ++ cell :: after := by
    intro other hother
    rcases List.mem_append.mp hother with hleft | hright
    · exact List.mem_append_left _ hleft
    · exact List.mem_append_right _ (List.mem_cons_of_mem _ hright)
  have hholds := hchildren.holds cell hcell
  obtain ⟨cleared, hclear⟩ := hholds.exists_clear hscoped (cleared_refl heap) untouched_nil hnodup
    (fun _ _ h => (nomatch h)) hfuel
  obtain ⟨below, hbelow⟩ := hholds.exists_below
  have hspec := hholds
  rw [hbelow] at hspec
  obtain ⟨-, -, -, hframe, hblocks⟩ := hspec.clear_spec hscoped hclear
  rw [← hbelow] at hframe hblocks
  -- the list itself is as it was, since no child points to it
  have hblock : cleared.blocks p = some (.list ((before ++ cell :: after).map Cell.addr)) := by
    rw [hblocks p, if_neg (hchildren.notMem_payload hcell)]
    exact hchildren.block
  have hlisted : cell.addr ∈ (before ++ cell :: after).map Cell.addr := List.mem_map_of_mem hcell
  have hout : cell.addr ∉ (before ++ after).map Cell.addr := by
    have hlist : ((before ++ cell :: after).map Cell.addr).Nodup := hscoped.nodup hchildren.block
    rw [List.map_append, List.map_cons] at hlist
    rw [List.map_append]
    exact (List.nodup_middle.mp hlist).notMem
  have herase : ((before ++ cell :: after).map Cell.addr).erase cell.addr =
      (before ++ after).map Cell.addr := by
    rw [List.map_append] at hout
    rw [List.map_append, List.map_cons, List.map_append,
      List.erase_append_right _ fun h => hout (List.mem_append_left _ h), List.erase_cons_head]
  let left : XmlHeap := (cleared.setBlock p
    (.list (((before ++ cell :: after).map Cell.addr).erase cell.addr))).discard [cell.addr]
  have hnodes : ∀ b, b ∉ cell.footprint → left.nodes b = heap.nodes b := by
    intro b hb
    have hneq : b ≠ cell.addr := fun heq => hb (heq ▸ hholds.mem)
    exact (nodes_discard_of_notMem (by simpa using hneq)).trans (hframe b hb)
  have hblocks' : ∀ q, q ≠ p → q ∉ payload heap cell.footprint → left.blocks q = heap.blocks q := by
    intro q hqp hq
    exact (blocks_setBlock_of_ne hqp).trans ((hblocks q).trans (if_neg hq))
  have hapart : ∀ other ∈ before ++ after, cell.footprint.Disjoint other.footprint := by
    intro other hother
    have hneq : cell.addr ≠ other.addr := fun heq => hout (heq ▸ List.mem_map_of_mem hother)
    exact hchildren.footprint_disjoint hscoped hcell (hmem other hother) hneq (hdisjoint other hother)
  refine ⟨left, ?_, scoped_erase (scoped_clear hscoped hclear) hblock hlisted, ⟨?_, ?_, ?_⟩, ?_⟩
  · have hread : XmlHeap.childrenAt cleared (some p) =
        some ((before ++ cell :: after).map Cell.addr) := by
      rw [XmlHeap.childrenAt, hblock]
      rfl
    rw [XmlHeap.eraseChild, hclear, Option.bind_eq_bind, Option.bind_some, hread, Option.bind_eq_bind,
      Option.bind_some, if_pos hlisted]
  · obtain ⟨xml, hnode, hpointer⟩ := hchildren.pointer
    exact ⟨xml, (hnodes this (hchildren.notMem_footprint hcell)).trans hnode, hpointer⟩
  · rw [← herase]
    exact blocks_setBlock_self
  · intro other hother
    refine (hchildren.holds other (hmem other hother)).transport ?_ ?_
    · exact fun b hb => hnodes b fun hb' => hapart other hother hb' hb
    · intro q hq
      have hqp : q ≠ p := by
        rintro rfl
        exact hchildren.notMem_payload (hmem other hother) hq
      exact hblocks' q hqp fun hq' => hdisjoint other hother hq' hq
  · exact fun other hother => payload_congr fun b hb =>
      hnodes b fun hb' => hapart other hother hb' hb

/-! ## `remove` -/

/-- The children that go share nothing with each other or with the ones that stay. -/
structure Separate (heap : XmlHeap) (removed kept : List Cell) : Prop where
  nodup : (payload heap (removed.flatMap Cell.footprint)).Nodup
  disjoint : (payload heap (removed.flatMap Cell.footprint)).Disjoint
    (payload heap (kept.flatMap Cell.footprint))

theorem payload_flatMap (cells : List Cell) : payload heap (cells.flatMap Cell.footprint) =
    cells.flatMap fun cell => payload heap cell.footprint := List.flatMap_assoc

theorem payload_flatMap_congr
    (hsame : ∀ cell ∈ cells, payload heap' cell.footprint = payload heap cell.footprint) :
    payload heap' (cells.flatMap Cell.footprint) = payload heap (cells.flatMap Cell.footprint) := by
  rw [payload_flatMap, payload_flatMap]
  exact List.flatMap_congr hsame

theorem mem_payload_flatMap {q : ℕ} (hcell : cell ∈ cells) (hq : q ∈ payload heap cell.footprint) :
    q ∈ payload heap (cells.flatMap Cell.footprint) := by
  rw [payload_flatMap]
  exact List.mem_flatMap.mpr ⟨cell, hcell, hq⟩

theorem Separate.of_nodup {removed kept : List Cell}
    (hnodup : (payload heap ((removed ++ kept).flatMap Cell.footprint)).Nodup) :
    heap.Separate removed kept := by
  rw [List.flatMap_append, payload_append] at hnodup
  obtain ⟨hremoved, -, hdisjoint⟩ := List.nodup_append'.mp hnodup
  exact ⟨hremoved, hdisjoint⟩

theorem Separate.congr {removed kept : List Cell} (hseparate : heap.Separate removed kept)
    (hremoved : ∀ cell ∈ removed, payload heap' cell.footprint = payload heap cell.footprint)
    (hkept : ∀ cell ∈ kept, payload heap' cell.footprint = payload heap cell.footprint) :
    heap'.Separate removed kept := by
  refine ⟨?_, ?_⟩
  · rw [payload_flatMap_congr hremoved]
    exact hseparate.nodup
  · rw [payload_flatMap_congr hremoved, payload_flatMap_congr hkept]
    exact hseparate.disjoint

/-- The first of the children that go shares nothing with any other. -/
theorem Separate.head {removed kept : List Cell} (hseparate : heap.Separate (cell :: removed) kept)
    (hother : other ∈ removed ∨ other ∈ kept) :
    (payload heap cell.footprint).Disjoint (payload heap other.footprint) := by
  obtain ⟨hnodup, hdisjoint⟩ := hseparate
  rw [List.flatMap_cons, payload_append] at hnodup hdisjoint
  intro q hq hq'
  rcases hother with hother | hother
  · exact (List.nodup_append'.mp hnodup).2.2 hq (mem_payload_flatMap hother hq')
  · exact hdisjoint (List.mem_append_left _ hq) (mem_payload_flatMap hother hq')

theorem Separate.head_nodup {removed kept : List Cell}
    (hseparate : heap.Separate (cell :: removed) kept) : (payload heap cell.footprint).Nodup := by
  have hnodup := hseparate.nodup
  rw [List.flatMap_cons, payload_append] at hnodup
  exact (List.nodup_append'.mp hnodup).1

theorem Separate.tail {removed kept : List Cell}
    (hseparate : heap.Separate (cell :: removed) kept) : heap.Separate removed kept := by
  obtain ⟨hnodup, hdisjoint⟩ := hseparate
  rw [List.flatMap_cons, payload_append] at hnodup hdisjoint
  exact ⟨(List.nodup_append'.mp hnodup).2.1, fun q hq => hdisjoint (List.mem_append_right _ hq)⟩

/-- `remove(int)` of a child that is there. -/
theorem ChildrenAt.remove {i : ℤ} (hchildren : heap.ChildrenAt this p cells) (hscoped : heap.Scoped)
    (hnonneg : 0 ≤ i) (hcell : cells[i.toNat]? = some cell)
    (hseparate : heap.Separate [cell] (cells.eraseIdx i.toNat))
    (hfuel : cell.footprint.length ≤ fuel) :
    ∃ heap', XmlHeap.remove heap fuel this i = some (heap', .ok ()) ∧
      heap.Shrunk this p (cells.eraseIdx i.toNat) heap' := by
  obtain ⟨xml, hnode, hpointer⟩ := hchildren.pointer
  have hread := hchildren.childrenAt
  obtain ⟨hlt, hget⟩ := List.getElem?_eq_some_iff.mp hcell
  have hsplit : cells = cells.take i.toNat ++ cell :: cells.drop (i.toNat + 1) := by
    rw [← hget, List.getElem_cons_drop, List.take_append_drop]
  rw [List.eraseIdx_eq_take_drop_succ] at hseparate ⊢
  obtain ⟨heap', herase, hshrunk⟩ := ChildrenAt.eraseChild (hsplit ▸ hchildren) hscoped
    hseparate.head_nodup (fun other hother => hseparate.head (.inr hother)) hfuel
  refine ⟨heap', ?_, hshrunk⟩
  have haddr : (if i < 0 then none else (cells.map Cell.addr)[i.toNat]?) = some cell.addr := by
    rw [if_neg (not_lt.mpr hnonneg), List.getElem?_map, hcell]
    rfl
  rw [XmlHeap.remove, hnode, Option.bind_eq_bind, Option.bind_some, hpointer]
  change (XmlHeap.childrenAt heap (some p)).bind _ = _
  rw [hread, Option.bind_some, haddr]
  change (XmlHeap.eraseChild heap fuel p cell.addr).bind _ = _
  rw [herase]
  rfl

/-- `remove(int)` out of range. -/
theorem ChildrenAt.remove_out {i : ℤ} (hchildren : heap.ChildrenAt this p cells)
    (hout : ¬ (0 ≤ i ∧ i < cells.length)) (fuel : ℕ) :
    XmlHeap.remove heap fuel this i = some (heap, .error "index is out of range") := by
  obtain ⟨xml, hnode, hpointer⟩ := hchildren.pointer
  have hread := hchildren.childrenAt
  have haddr : (if i < 0 then none else (cells.map Cell.addr)[i.toNat]?) = none := by
    split_ifs with hneg
    · rfl
    · rw [List.getElem?_eq_none_iff, List.length_map]
      omega
  rw [XmlHeap.remove, hnode, Option.bind_eq_bind, Option.bind_some, hpointer]
  change (XmlHeap.childrenAt heap (some p)).bind _ = _
  rw [hread, Option.bind_some, haddr]
  rfl

/-- Both `remove` functions leave an element without a list alone. -/
theorem remove_of_none (hchildren : heap.HasChildren this none) (fuel : ℕ) (i : ℤ) (name : XmlText) :
    XmlHeap.remove heap fuel this i = some (heap, .ok ()) ∧
      XmlHeap.removeName heap fuel this name = some heap := by
  obtain ⟨xml, hnode, hpointer⟩ := hchildren
  constructor
  · rw [XmlHeap.remove, hnode, Option.bind_eq_bind, Option.bind_some, hpointer]
    rfl
  · rw [XmlHeap.removeName, hnode, Option.bind_eq_bind, Option.bind_some, hpointer]

/-- The loop of `remove(const string &)`, with the children it has kept so far. -/
theorem ChildrenAt.removeLoop {name : XmlText} {kept rest : List Cell}
    (hchildren : heap.ChildrenAt this p (kept ++ rest)) (hscoped : heap.Scoped)
    (hseparate : heap.Separate (rest.filter fun cell => cell.tree.nameText = name)
      (kept ++ rest.filter fun cell => cell.tree.nameText ≠ name))
    (hfuel : ∀ cell ∈ rest, cell.footprint.length ≤ fuel) :
    ∃ heap', XmlHeap.removeLoop fuel p name (rest.map Cell.addr) heap = some heap' ∧
      heap.Shrunk this p (kept ++ rest.filter fun cell => cell.tree.nameText ≠ name) heap' := by
  induction rest generalizing heap kept with
  | nil => exact ⟨heap, rfl, hscoped, by simpa using hchildren, fun _ _ => rfl⟩
  | cons cell rest ih =>
      obtain ⟨hlength, hfuel'⟩ := List.forall_mem_cons.mp hfuel
      have hholds := hchildren.holds cell (by simp)
      obtain ⟨xml, hnode⟩ := hholds.exists_node
      rw [List.map_cons, XmlHeap.removeLoop, hnode, Option.bind_eq_bind, Option.bind_some,
        hholds.nameText hnode, Option.bind_eq_bind, Option.bind_some]
      by_cases hname : cell.tree.nameText = name
      · have hgoes : (cell :: rest).filter (fun cell => cell.tree.nameText = name) =
            cell :: rest.filter fun cell => cell.tree.nameText = name := by simp [hname]
        have hstays : (cell :: rest).filter (fun cell => cell.tree.nameText ≠ name) =
            rest.filter fun cell => cell.tree.nameText ≠ name := by simp [hname]
        rw [hgoes, hstays] at hseparate
        rw [if_pos hname, hstays]
        have hothers : ∀ other ∈ kept ++ rest,
            (payload heap cell.footprint).Disjoint (payload heap other.footprint) := by
          intro other hother
          apply hseparate.head
          rcases List.mem_append.mp hother with hkept | hrest
          · exact .inr (List.mem_append_left _ hkept)
          · by_cases hsame : other.tree.nameText = name
            · exact .inl (List.mem_filter.mpr ⟨hrest, decide_eq_true hsame⟩)
            · exact .inr (List.mem_append_right _ (List.mem_filter.mpr ⟨hrest, decide_eq_true hsame⟩))
        obtain ⟨middle, herase, hshrunk⟩ :=
          hchildren.eraseChild hscoped hseparate.head_nodup hothers hlength
        have hmem : ∀ other ∈ kept ++ rest.filter fun cell => cell.tree.nameText ≠ name,
            other ∈ kept ++ rest := by
          intro other hother
          rcases List.mem_append.mp hother with hkept | hrest
          · exact List.mem_append_left _ hkept
          · exact List.mem_append_right _ (List.mem_of_mem_filter hrest)
        have hseparate' := hseparate.tail.congr
          (fun other hother =>
            hshrunk.kept other (List.mem_append_right _ (List.mem_of_mem_filter hother)))
          fun other hother => hshrunk.kept other (hmem other hother)
        obtain ⟨heap', hloop, hshrunk'⟩ := ih hshrunk.children hshrunk.isScoped hseparate' hfuel'
        refine ⟨heap', ?_, hshrunk'.isScoped, hshrunk'.children, fun other hother => ?_⟩
        · rw [herase]
          exact hloop
        · rw [hshrunk'.kept other hother, hshrunk.kept other (hmem other hother)]
      · have hgoes : (cell :: rest).filter (fun cell => cell.tree.nameText = name) =
            rest.filter fun cell => cell.tree.nameText = name := by simp [hname]
        have hstays : kept ++ (cell :: rest).filter (fun cell => cell.tree.nameText ≠ name) =
            (kept ++ [cell]) ++ rest.filter fun cell => cell.tree.nameText ≠ name := by simp [hname]
        rw [hgoes, hstays] at hseparate
        rw [if_neg hname, hstays]
        exact ih (by simpa using hchildren) hscoped hseparate hfuel'

/-- `remove(const string &)`. -/
theorem ChildrenAt.removeName {name : XmlText} (hchildren : heap.ChildrenAt this p cells)
    (hscoped : heap.Scoped)
    (hseparate : heap.Separate (cells.filter fun cell => cell.tree.nameText = name)
      (cells.filter fun cell => cell.tree.nameText ≠ name))
    (hfuel : ∀ cell ∈ cells, cell.footprint.length ≤ fuel) :
    ∃ heap', XmlHeap.removeName heap fuel this name = some heap' ∧
      heap.Shrunk this p (cells.filter fun cell => cell.tree.nameText ≠ name) heap' := by
  obtain ⟨xml, hnode, hpointer⟩ := hchildren.pointer
  have hstart : heap.ChildrenAt this p ([] ++ cells) := hchildren
  obtain ⟨heap', hloop, hshrunk⟩ := hstart.removeLoop hscoped hseparate hfuel
  refine ⟨heap', ?_, hshrunk⟩
  rw [XmlHeap.removeName, hnode, Option.bind_eq_bind, Option.bind_some, hpointer]
  change (XmlHeap.childrenAt heap (some p)).bind _ = _
  rw [hchildren.childrenAt]
  exact hloop

end XmlHeap

end CppProjects
