import CppProjects.Xml.XmlErase

/-!
# The children of an `XML` as a list

`operator[]` and `remove` refine operations on a list of trees, as long as an index to pad to
is not the largest `int`, there are fewer children than an `int` counts, and what is removed
shares nothing with what stays.
-/

namespace CppProjects

/-- A call that looks a child up or removes some.  An index to look up is not negative. -/
inductive ChildOp
  | index (i : ℕ)
  | indexName (name : XmlText)
  | remove (i : ℤ)
  | removeName (name : XmlText)
deriving DecidableEq, Repr

/-- The children of an element; `none` until there is a list for them. -/
abbrev ChildList := Option (List XmlTree)

namespace ChildList

/-- The list is padded up to the index. -/
def index (children : ChildList) (i : ℕ) : ChildList × ℕ :=
  let trees := children.getD []
  (some (trees ++ List.replicate (i + 1 - trees.length) (.leaf none)), i)

/-- The first child of the name is looked up, and one is appended if there is none. -/
def indexName (children : ChildList) (name : XmlText) : ChildList × ℕ :=
  let trees := children.getD []
  match trees.findIdx? fun tree => tree.nameText = name with
  | some k => (some trees, k)
  | none => (some (trees ++ [.leaf (some name)]), trees.length)

def remove (children : ChildList) (i : ℤ) : ChildList × Except String Unit :=
  match children with
  | none => (none, .ok ())
  | some trees =>
      if 0 ≤ i ∧ i < trees.length then (some (trees.eraseIdx i.toNat), .ok ())
      else (some trees, .error "index is out of range")

def removeName (children : ChildList) (name : XmlText) : ChildList :=
  children.map fun trees => trees.filter fun tree => tree.nameText ≠ name

/-- A call, with the position of the child it refers to or the text it throws. -/
def perform (children : ChildList) : ChildOp → ChildList × Except String (Option ℕ)
  | .index i => ((children.index i).1, .ok (some (children.index i).2))
  | .indexName name => ((children.indexName name).1, .ok (some (children.indexName name).2))
  | .remove i => ((children.remove i).1, (children.remove i).2.map fun _ => none)
  | .removeName name => (children.removeName name, .ok none)

end ChildList

namespace XmlHeap

open NodeHeap CInt

variable {heap heap' : XmlHeap} {this p addr fuel : ℕ} {cells : Option (List Cell)}
  {children : ChildList} {op : ChildOp} {ops : List ChildOp}

/-- A call of the code, with the address of the child it refers to or the text it throws. -/
def perform (heap : XmlHeap) (fuel this : ℕ) :
    ChildOp → Option (XmlHeap × Except String (Option ℕ))
  | .index i => (index heap this i).map fun result => (result.1, result.2.map some)
  | .indexName name => (indexName heap this name).map fun result => (result.1, .ok (some result.2))
  | .remove i => (remove heap fuel this i).map fun result => (result.1, result.2.map fun _ => none)
  | .removeName name => (removeName heap fuel this name).map fun heap => (heap, .ok none)

/-- The trees of the children. -/
def treesOf (cells : Option (List Cell)) : ChildList := cells.map fun cells => cells.map Cell.tree

/-- The element's children are a list of trees. -/
def Shows (heap : XmlHeap) (this : ℕ) (children : ChildList) : Prop :=
  ∃ cells, heap.HasChildren this cells ∧ treesOf cells = children

/-- An outcome of the code agrees with one of the list: the child is the one at the position,
or both throw the same. -/
def Agrees (addrs : List ℕ) : Except String (Option ℕ) → Except String (Option ℕ) → Prop
  | .ok (some addr), .ok (some k) => addrs[k]? = some addr
  | .ok none, .ok none => True
  | .error text, .error text' => text = text'
  | .ok (some _), .ok none | .ok none, .ok (some _) | .ok _, .error _ | .error _, .ok _ => False

/-- After a call the element shows the list, and the outcomes agree. -/
def Answers (heap : XmlHeap) (this : ℕ) (expected : ChildList × Except String (Option ℕ))
    (outcome : Except String (Option ℕ)) : Prop :=
  ∃ cells, heap.HasChildren this cells ∧ treesOf cells = expected.1 ∧
    Agrees ((cells.getD []).map Cell.addr) outcome expected.2

/-- Call by call, the code does to the element what the list does. -/
def Refines (fuel this : ℕ) : List ChildOp → XmlHeap → ChildList → Prop
  | [], heap, children => heap.Shows this children
  | op :: ops, heap, children => heap.Shows this children ∧
      ∃ heap' outcome, heap.perform fuel this op = some (heap', outcome) ∧
        heap'.Answers this (children.perform op) outcome ∧
        Refines fuel this ops heap' (children.perform op).1

/-- An index is inside the list as `int` counts it, or behind it and less than the largest
`int`; what is removed shares nothing. -/
def Clean (heap : XmlHeap) (cells : List Cell) : ChildOp → Prop
  | .index i => (i : ℤ) < toInt cells.length ∨ cells.length ≤ i ∧ i < intMax
  | .indexName _ => True
  | .remove i => 0 ≤ i → ∀ cell, cells[i.toNat]? = some cell →
      heap.Separate [cell] (cells.eraseIdx i.toNat)
  | .removeName name => heap.Separate (cells.filter fun cell => cell.tree.nameText = name)
      (cells.filter fun cell => cell.tree.nameText ≠ name)

/-- Every call of a run is clean. -/
def CleanRun (fuel this : ℕ) : List ChildOp → XmlHeap → Prop
  | [], _ => True
  | op :: ops, heap => (∀ cells, heap.HasChildren this cells → heap.Clean (cells.getD []) op) ∧
      ∀ heap' outcome, heap.perform fuel this op = some (heap', outcome) →
        CleanRun fuel this ops heap'

/-! ## One call -/

theorem Holds.footprint_leaf {name : Option XmlText} {footprint : List ℕ}
    (hholds : heap.Holds addr (.leaf name) footprint) : footprint = [addr] := by
  generalize htree : XmlTree.leaf name = tree at hholds
  cases hholds with
  | @element _ xml text attrs name' cells hnode =>
      simp only [XmlTree.leaf, XmlTree.element.injEq] at htree
      obtain rfl := List.map_eq_nil_iff.mp htree.2.2.2.symm
      rfl

/-- An element whose children are trees that `fuel` suffices to clear. -/
structure Element (heap : XmlHeap) (fuel this : ℕ) (cells : Option (List Cell)) : Prop where
  isScoped : heap.Scoped
  children : heap.HasChildren this cells
  short : ∀ cell ∈ cells.getD [], cell.footprint.length ≤ fuel

/-- The children share nothing. -/
def Exclusive (heap : XmlHeap) (cells : List Cell) : Prop :=
  (payload heap (cells.flatMap Cell.footprint)).Nodup

theorem getD_treesOf (cells : Option (List Cell)) :
    (treesOf cells).getD [] = (cells.getD []).map Cell.tree := by
  cases cells <;> rfl

theorem Element.of_grown {added : List Cell} (helement : heap.Element fuel this cells)
    (hfuel : 1 ≤ fuel) (hgrown : heap.Grown this (cells.getD []) added heap')
    (hleaf : ∀ cell ∈ added, ∃ name, cell.tree = .leaf name) :
    heap'.Element fuel this (some (cells.getD [] ++ added)) := by
  refine ⟨hgrown.isScoped, hgrown.children, fun cell hmem => ?_⟩
  rcases List.mem_append.mp hmem with hold | hnew
  · exact helement.short cell hold
  · obtain ⟨p, hat⟩ := hgrown.children
    obtain ⟨name, htree⟩ := hleaf cell hnew
    have hholds := hat.holds cell hmem
    rw [htree] at hholds
    rw [hholds.footprint_leaf]
    exact hfuel

theorem Exclusive.of_grown {cs added : List Cell} (hexclusive : heap.Exclusive cs)
    (hscoped : heap.Scoped) (hgrown : heap.Grown this cs added heap') :
    heap'.Exclusive (cs ++ added) := by
  rw [Exclusive, List.flatMap_append, payload_append, payload_flatMap_congr hgrown.kept]
  refine List.nodup_append'.mpr ⟨hexclusive, hgrown.nodup, fun q hq hq' => ?_⟩
  have hlt := payload_lt_top hscoped hq
  have hle := hgrown.fresh q hq'
  omega

theorem Element.of_shrunk {cs kept : List Cell} (helement : heap.Element fuel this (some cs))
    (hsublist : kept.Sublist cs) (hshrunk : heap.Shrunk this p kept heap') :
    heap'.Element fuel this (some kept) where
  isScoped := hshrunk.isScoped
  children := ⟨p, hshrunk.children⟩
  short := fun cell hmem => helement.short cell (hsublist.subset hmem)

theorem Exclusive.of_shrunk {cs kept : List Cell} (hexclusive : heap.Exclusive cs)
    (hsublist : kept.Sublist cs) (hshrunk : heap.Shrunk this p kept heap') :
    heap'.Exclusive kept := by
  rw [Exclusive, payload_flatMap_congr hshrunk.kept, payload_flatMap]
  rw [Exclusive, payload_flatMap] at hexclusive
  exact hexclusive.sublist (hsublist.flatMap _)

/-- What one call does to an element: what it does to the list. -/
structure Stepped (heap : XmlHeap) (fuel this : ℕ) (cells : Option (List Cell)) (op : ChildOp)
    (heap' : XmlHeap) (outcome : Except String (Option ℕ)) (cells' : Option (List Cell)) : Prop where
  performs : heap.perform fuel this op = some (heap', outcome)
  element : heap'.Element fuel this cells'
  trees : treesOf cells' = ((treesOf cells).perform op).1
  agrees : Agrees ((cells'.getD []).map Cell.addr) outcome ((treesOf cells).perform op).2
  exclusive : heap.Exclusive (cells.getD []) → heap'.Exclusive (cells'.getD [])

theorem Element.index {i : ℕ} (helement : heap.Element fuel this cells) (hfuel : 1 ≤ fuel)
    (hclean : heap.Clean (cells.getD []) (.index i)) :
    ∃ heap' outcome cells', heap.Stepped fuel this cells (.index i) heap' outcome cells' := by
  obtain ⟨heap', addr, added, hindex, hgrown, htrees, haddr⟩ :=
    helement.children.index helement.isScoped hclean
  refine ⟨heap', .ok (some addr), some (cells.getD [] ++ added), ?_, ?_, ?_, haddr, ?_⟩
  · rw [perform, hindex]
    rfl
  · refine helement.of_grown hfuel hgrown fun cell hmem => ⟨none, ?_⟩
    have htree : cell.tree ∈ added.map Cell.tree := List.mem_map_of_mem hmem
    rw [htrees] at htree
    exact List.eq_of_mem_replicate htree
  · change some ((cells.getD [] ++ added).map Cell.tree) = some _
    rw [List.map_append, htrees, getD_treesOf, List.length_map]
  · exact fun hexclusive => hexclusive.of_grown helement.isScoped hgrown

theorem findIdx?_trees (cells : List Cell) (name : XmlText) :
    ((cells.map Cell.tree).findIdx? fun tree => tree.nameText = name) =
      cells.findIdx? fun cell => cell.tree.nameText = name := List.findIdx?_map

theorem Element.indexName {name : XmlText} (helement : heap.Element fuel this cells)
    (hfuel : 1 ≤ fuel) :
    ∃ heap' outcome cells', heap.Stepped fuel this cells (.indexName name) heap' outcome cells' := by
  cases hfind : (cells.getD []).findIdx? fun cell => cell.tree.nameText = name with
  | some k =>
      obtain ⟨heap', addr, hindex, hgrown, haddr⟩ :=
        helement.children.indexName_of_some helement.isScoped hfind
      have hexpected : (treesOf cells).indexName name = (some ((cells.getD []).map Cell.tree), k) := by
        rw [ChildList.indexName, getD_treesOf, findIdx?_trees, hfind]
      refine ⟨heap', .ok (some addr), some (cells.getD [] ++ []), ?_, ?_, ?_, ?_, ?_⟩
      · rw [perform, hindex]
        rfl
      · exact helement.of_grown hfuel hgrown fun _ h => (nomatch h)
      · rw [ChildList.perform, hexpected, List.append_nil]
        rfl
      · rw [ChildList.perform, hexpected, List.append_nil]
        exact haddr
      · exact fun hexclusive => hexclusive.of_grown helement.isScoped hgrown
  | none =>
      obtain ⟨heap', addr, cell, hindex, hgrown, htree, rfl⟩ :=
        helement.children.indexName_of_none helement.isScoped hfind
      have hexpected : (treesOf cells).indexName name =
          (some ((cells.getD []).map Cell.tree ++ [.leaf (some name)]), (cells.getD []).length) := by
        rw [ChildList.indexName, getD_treesOf, findIdx?_trees, hfind, List.length_map]
      refine ⟨heap', .ok (some cell.addr), some (cells.getD [] ++ [cell]), ?_, ?_, ?_, ?_, ?_⟩
      · rw [perform, hindex]
        rfl
      · refine helement.of_grown hfuel hgrown fun other hmem => ⟨some name, ?_⟩
        rw [List.mem_singleton.mp hmem, htree]
      · rw [ChildList.perform, hexpected, ← htree]
        exact congrArg some List.map_append
      · rw [ChildList.perform, hexpected]
        change ((cells.getD [] ++ [cell]).map Cell.addr)[(cells.getD []).length]? = some cell.addr
        simp
      · exact fun hexclusive => hexclusive.of_grown helement.isScoped hgrown

theorem Element.remove {i : ℤ} (helement : heap.Element fuel this cells)
    (hclean : heap.Clean (cells.getD []) (.remove i)) :
    ∃ heap' outcome cells', heap.Stepped fuel this cells (.remove i) heap' outcome cells' := by
  cases cells with
  | none =>
      refine ⟨heap, .ok none, none, ?_, helement, rfl, trivial, id⟩
      rw [perform, (remove_of_none helement.children fuel i []).1]
      rfl
  | some cs =>
      obtain ⟨p, hat⟩ := helement.children
      by_cases hin : 0 ≤ i ∧ i < cs.length
      · have hlt : i.toNat < cs.length := by omega
        have hcell : cs[i.toNat]? = some cs[i.toNat] := List.getElem?_eq_getElem hlt
        obtain ⟨heap', hremove, hshrunk⟩ := hat.remove helement.isScoped hin.1 hcell
          (hclean hin.1 _ hcell) (helement.short _ (List.getElem_mem hlt))
        have hexpected : (treesOf (some cs)).remove i =
            (some ((cs.map Cell.tree).eraseIdx i.toNat), .ok ()) := by
          change (if 0 ≤ i ∧ i < (cs.map Cell.tree).length then _ else _) = _
          rw [List.length_map, if_pos hin]
        have hsublist := List.eraseIdx_sublist cs i.toNat
        refine ⟨heap', .ok none, some (cs.eraseIdx i.toNat), ?_, helement.of_shrunk hsublist hshrunk,
          ?_, ?_, fun hexclusive => hexclusive.of_shrunk hsublist hshrunk⟩
        · rw [perform, hremove]
          rfl
        · rw [ChildList.perform, hexpected]
          exact congrArg some (List.eraseIdx_map Cell.tree cs i.toNat).symm
        · rw [ChildList.perform, hexpected]
          trivial
      · have hexpected : (treesOf (some cs)).remove i =
            (treesOf (some cs), .error "index is out of range") := by
          change (if 0 ≤ i ∧ i < (cs.map Cell.tree).length then _ else _) = _
          rw [List.length_map, if_neg hin]
          rfl
        refine ⟨heap, .error "index is out of range", some cs, ?_, helement, ?_, ?_, id⟩
        · rw [perform, hat.remove_out hin fuel]
          rfl
        · rw [ChildList.perform, hexpected]
        · rw [ChildList.perform, hexpected]
          rfl

theorem Element.removeName {name : XmlText} (helement : heap.Element fuel this cells)
    (hclean : heap.Clean (cells.getD []) (.removeName name)) :
    ∃ heap' outcome cells', heap.Stepped fuel this cells (.removeName name) heap' outcome cells' := by
  cases cells with
  | none =>
      refine ⟨heap, .ok none, none, ?_, helement, rfl, trivial, id⟩
      rw [perform, (remove_of_none helement.children fuel 0 name).2]
      rfl
  | some cs =>
      obtain ⟨p, hat⟩ := helement.children
      obtain ⟨heap', hremove, hshrunk⟩ := hat.removeName helement.isScoped hclean helement.short
      have hsublist : (cs.filter fun cell => cell.tree.nameText ≠ name).Sublist cs :=
        List.filter_sublist
      refine ⟨heap', .ok none, some (cs.filter fun cell => cell.tree.nameText ≠ name), ?_,
        helement.of_shrunk hsublist hshrunk, ?_, trivial,
        fun hexclusive => hexclusive.of_shrunk hsublist hshrunk⟩
      · rw [perform, hremove]
        rfl
      · have htrees : (cs.map Cell.tree).filter (fun tree => tree.nameText ≠ name) =
            (cs.filter fun cell => cell.tree.nameText ≠ name).map Cell.tree := List.filter_map
        exact congrArg some htrees.symm

/-- A clean call does to the element what it does to the list. -/
theorem Element.step (helement : heap.Element fuel this cells) (hfuel : 1 ≤ fuel)
    (hclean : heap.Clean (cells.getD []) op) :
    ∃ heap' outcome cells', heap.Stepped fuel this cells op heap' outcome cells' := by
  cases op with
  | index i => exact helement.index hfuel hclean
  | indexName name => exact helement.indexName hfuel
  | remove i => exact helement.remove hclean
  | removeName name => exact helement.removeName hclean

/-! ## Any number of calls -/

theorem Element.refines (helement : heap.Element fuel this cells) (hfuel : 1 ≤ fuel)
    (hclean : heap.CleanRun fuel this ops) : Refines fuel this ops heap (treesOf cells) := by
  induction ops generalizing heap cells with
  | nil => exact ⟨cells, helement.children, rfl⟩
  | cons op ops ih =>
      obtain ⟨hnow, hlater⟩ := hclean
      obtain ⟨heap', outcome, cells', hstep⟩ := helement.step hfuel (hnow cells helement.children)
      refine ⟨⟨cells, helement.children, rfl⟩, heap', outcome, hstep.performs,
        ⟨cells', hstep.element.children, hstep.trees, hstep.agrees⟩, ?_⟩
      rw [← hstep.trees]
      exact ih hstep.element (hlater heap' outcome hstep.performs)

/-- Any calls of `operator[]` and `remove` on an element do to its children what they do to
a list of trees, as long as each of them is clean. -/
theorem children_refine (hscoped : heap.Scoped) (hshows : heap.Shows this children)
    (ops : List ChildOp) : ∃ bound, ∀ fuel ≥ bound, heap.CleanRun fuel this ops →
      Refines fuel this ops heap children := by
  obtain ⟨cells, hchildren, rfl⟩ := hshows
  refine ⟨((cells.getD []).flatMap Cell.footprint).length + 1, fun fuel hfuel hclean => ?_⟩
  have helement : heap.Element fuel this cells := by
    refine ⟨hscoped, hchildren, fun cell hmem => ?_⟩
    have hle := length_le_flatMap hmem
    omega
  exact helement.refines (by omega) hclean

/-- The indices of a run are clean, as the list tells. -/
def IndicesClean : List ChildOp → ChildList → Prop
  | [], _ => True
  | op :: ops, children =>
      (∀ i, op = .index i → (i : ℤ) < toInt (children.getD []).length ∨
        (children.getD []).length ≤ i ∧ i < intMax) ∧
      IndicesClean ops (children.perform op).1

theorem Exclusive.separate {cs removed kept : List Cell} (hexclusive : heap.Exclusive cs)
    (hperm : (removed ++ kept).Perm cs) : heap.Separate removed kept := by
  apply Separate.of_nodup
  rw [payload_flatMap]
  rw [Exclusive, payload_flatMap] at hexclusive
  exact (hperm.flatMap_right _).nodup_iff.mpr hexclusive

/-- Children that share nothing can be removed in any order. -/
theorem Exclusive.clean {cs : List Cell} (hexclusive : heap.Exclusive cs)
    (hindex : ∀ i, op = .index i → (i : ℤ) < toInt cs.length ∨ cs.length ≤ i ∧ i < intMax) :
    heap.Clean cs op := by
  cases op with
  | index i => exact hindex i rfl
  | indexName name => trivial
  | remove i =>
      intro _ cell hcell
      obtain ⟨hlt, hget⟩ := List.getElem?_eq_some_iff.mp hcell
      apply hexclusive.separate
      rw [← hget]
      exact List.getElem_cons_eraseIdx_perm hlt
  | removeName name =>
      apply hexclusive.separate
      have hperm := List.filter_append_perm (fun cell : Cell => decide (cell.tree.nameText = name)) cs
      simpa using hperm

/-- What an element has as children is determined, as far as `Clean` looks at it. -/
theorem HasChildren.unique {cells' : Option (List Cell)} (hchildren : heap.HasChildren this cells)
    (hchildren' : heap.HasChildren this cells') :
    (cells'.getD []).flatMap Cell.footprint = (cells.getD []).flatMap Cell.footprint ∧
      (cells'.getD []).length = (cells.getD []).length := by
  have hpointer : ∀ {cs : List Cell} {q : ℕ}, heap.ChildrenAt this q cs →
      ¬ heap.HasChildren this none := by
    rintro cs q hat ⟨xml', hnode', hnull⟩
    obtain ⟨xml, hnode, hsome⟩ := hat.pointer
    obtain rfl := Option.some.inj (hnode.symm.trans hnode')
    cases hnull.symm.trans hsome
  cases cells with
  | none =>
      cases cells' with
      | none => exact ⟨rfl, rfl⟩
      | some cs' =>
          obtain ⟨q, hat⟩ := hchildren'
          exact absurd hchildren (hpointer hat)
  | some cs =>
      obtain ⟨q, hat⟩ := hchildren
      cases cells' with
      | none => exact absurd hchildren' (hpointer hat)
      | some cs' =>
          obtain ⟨q', hat'⟩ := hchildren'
          obtain ⟨xml, hnode, hsome⟩ := hat.pointer
          obtain ⟨xml', hnode', hsome'⟩ := hat'.pointer
          obtain rfl := Option.some.inj (hnode.symm.trans hnode')
          obtain rfl := Option.some.inj (hsome.symm.trans hsome')
          have haddrs : cs'.map Cell.addr = cs.map Cell.addr :=
            XmlBlock.list.inj (Option.some.inj (hat'.block.symm.trans hat.block))
          refine ⟨flatMap_footprint_eq haddrs fun cell' hcell' cell hcell heq => ?_, ?_⟩
          · exact (hat'.holds cell' hcell').footprint_unique (heq ▸ hat.holds cell hcell)
          · simpa using congrArg List.length haddrs

/-- A run is clean where the children share nothing at its start and its indices are. -/
theorem Element.cleanRun (helement : heap.Element fuel this cells) (hfuel : 1 ≤ fuel)
    (hexclusive : heap.Exclusive (cells.getD [])) (hindices : IndicesClean ops (treesOf cells)) :
    heap.CleanRun fuel this ops := by
  induction ops generalizing heap cells with
  | nil => trivial
  | cons op ops ih =>
      obtain ⟨hindex, hlater⟩ := hindices
      rw [getD_treesOf, List.length_map] at hindex
      refine ⟨fun cells' hchildren' => ?_, fun heap' outcome hperform => ?_⟩
      · obtain ⟨hfootprints, hlength⟩ := helement.children.unique hchildren'
        have hexclusive' : heap.Exclusive (cells'.getD []) := by
          rw [Exclusive, hfootprints]
          exact hexclusive
        apply hexclusive'.clean
        rw [hlength]
        exact hindex
      · obtain ⟨heap₁, outcome₁, cells', hstep⟩ := helement.step hfuel (hexclusive.clean hindex)
        cases hperform.symm.trans hstep.performs
        rw [← hstep.trees] at hlater
        exact ih hstep.element (hstep.exclusive hexclusive) hlater

/-- On a new element: it is padded twice, a child gets a name, and some are removed. -/
def mixedCalls : List ChildOp :=
  [.remove 0, .index 1, .indexName ['b'], .indexName ['b'], .remove 5, .remove 1, .removeName [],
    .indexName [], .index 3]

theorem children_refine_mixed :
    ∃ fuel, Refines fuel 1 mixedCalls (ofName NodeHeap.empty ['a']) none := by
  have hscoped : (ofName NodeHeap.empty ['a']).Scoped := scoped_ofName scoped_empty ['a']
  have hshows : (ofName NodeHeap.empty ['a']).Shows 1 none := ⟨none, ⟨_, rfl, rfl⟩, rfl⟩
  obtain ⟨bound, hrefines⟩ := children_refine hscoped hshows mixedCalls
  have helement : (ofName NodeHeap.empty ['a']).Element (bound + 1) 1 none :=
    ⟨hscoped, ⟨_, rfl, rfl⟩, fun _ h => (nomatch h)⟩
  refine ⟨bound + 1, hrefines (bound + 1) (by omega) (helement.cleanRun (by omega) List.nodup_nil ?_)⟩
  refine ⟨?_, ?_, ?_, ?_, ?_, ?_, ?_, ?_, ?_, trivial⟩
  all_goals
    intro i heq
    cases heq
    try decide

/-- `a.append(b)`, twice: the two children share their name. -/
def twins : Option XmlHeap := do
  let heap ← append (ofName (ofName NodeHeap.empty ['a']) ['b']) 1 3
  append heap 1 3

theorem exists_twins : ∃ heap, twins = some heap ∧ heap.Scoped ∧
    heap.Shows 1 (some [.leaf (some ['b']), .leaf (some ['b'])]) := by
  have hscoped : (ofName (ofName NodeHeap.empty ['a']) ['b']).Scoped :=
    scoped_ofName (scoped_ofName scoped_empty ['a']) ['b']
  have hchildren : (ofName (ofName NodeHeap.empty ['a']) ['b']).HasChildren 1 none := ⟨_, rfl, rfl⟩
  have hnull : some 2 = (none : Option ℕ) ↔ some ['b'] = (none : Option XmlText) :=
    iff_of_false (fun h => nomatch h) fun h => nomatch h
  obtain ⟨listed, p, hensure, hscoped₁, -, hat₁, -⟩ := hchildren.ensureChildren hscoped
  obtain rfl := Option.some.inj hensure
  obtain ⟨first, hfirst, hscoped₂, -, hat₂, -⟩ := hat₁.pushBack hscoped₁ (by rfl) hnull
  obtain rfl := Option.some.inj hfirst
  obtain ⟨second, hsecond, hscoped₃, -, hat₃, -⟩ := hat₂.pushBack hscoped₂ (by rfl) hnull
  refine ⟨second, ?_, hscoped₃, some _, ⟨p, hat₃⟩, rfl⟩
  rw [← hsecond]
  rfl

/-- The name of the second child is gone with the first. -/
theorem not_refines_twins {heap : XmlHeap} (htwins : twins = some heap) (fuel : ℕ) :
    ¬ Refines fuel 1 [.remove 0] heap (some [.leaf (some ['b']), .leaf (some ['b'])]) := by
  obtain rfl := Option.some.inj htwins
  rintro ⟨-, heap', outcome, hperform, -, cells, hchildren, htrees⟩
  cases fuel with
  | zero => cases hperform
  | succ fuel =>
      obtain ⟨hheap, -⟩ := Prod.mk.inj (Option.some.inj hperform)
      have hthis : heap'.nodes 1 = some ⟨some 0, none, none, some 4⟩ := by
        rw [← hheap]
        rfl
      have hlist : heap'.blocks 4 = some (.list [6]) := by
        rw [← hheap]
        rfl
      have hsecond : heap'.nodes 6 = some ⟨some 2, none, none, none⟩ := by
        rw [← hheap]
        rfl
      have hname : heap'.blocks 2 = none := by
        rw [← hheap]
        rfl
      cases cells with
      | none =>
          obtain ⟨xml, hnode, hnull⟩ := hchildren
          obtain rfl := Option.some.inj (hthis.symm.trans hnode)
          cases hnull
      | some cs =>
          obtain ⟨p, hat⟩ := hchildren
          obtain ⟨xml, hnode, hpointer⟩ := hat.pointer
          obtain rfl := Option.some.inj (hthis.symm.trans hnode)
          obtain rfl := Option.some.inj hpointer
          have haddrs : cs.map Cell.addr = [6] :=
            XmlBlock.list.inj (Option.some.inj (hat.block.symm.trans hlist))
          obtain ⟨cell, rfl, haddr⟩ := List.map_eq_singleton_iff.mp haddrs
          have hholds := hat.holds cell List.mem_cons_self
          rw [haddr] at hholds
          have hread := hholds.nameText hsecond
          rw [XmlHeap.name, XmlHeap.textAt, hname] at hread
          cases hread

/-- Removing one of two children that share their name takes the other's name, and a new
element cannot be padded up to the largest `int`. -/
theorem children_not_refine :
    (∃ heap, twins = some heap ∧ heap.Scoped ∧
      heap.Shows 1 (some [.leaf (some ['b']), .leaf (some ['b'])]) ∧
      ∀ fuel, ¬ Refines fuel 1 [.remove 0] heap (some [.leaf (some ['b']), .leaf (some ['b'])])) ∧
    ∀ fuel, ¬ Refines fuel 1 [.index intMax] (ofName NodeHeap.empty ['a']) none := by
  constructor
  · obtain ⟨heap, htwins, hscoped, hshows⟩ := exists_twins
    exact ⟨heap, htwins, hscoped, hshows, not_refines_twins htwins⟩
  · rintro fuel ⟨-, heap', outcome, hperform, -, -⟩
    have hscoped : (ofName NodeHeap.empty ['a']).Scoped := scoped_ofName scoped_empty ['a']
    have hchildren : (ofName NodeHeap.empty ['a']).HasChildren 1 none := ⟨_, rfl, rfl⟩
    have hnone := hchildren.index_eq_none hscoped (i := intMax) (by decide) (Nat.le_refl _)
    rw [perform, hnone] at hperform
    cases hperform

end XmlHeap

end CppProjects
