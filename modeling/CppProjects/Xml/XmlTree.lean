import CppProjects.Xml.Xml

/-!
# The trees `XML` nodes hold

`Holds heap addr t footprint` says that the node at `addr` holds the tree `t`, and
that `footprint` are the nodes passed on the way, each as often as it is passed.
Nodes may share what they point to.
-/

namespace CppProjects

/-- An element without its pointers: what is behind a null pointer is empty. -/
inductive XmlTree
  | element (name : Option XmlText) (text : XmlText) (attrs : OrderedMap XmlText XmlText)
      (children : List XmlTree)

namespace XmlTree

theorem induction {P : XmlTree → Prop} (element : ∀ name text attrs children,
    (∀ child ∈ children, P child) → P (.element name text attrs children)) : ∀ t, P t := by
  apply XmlTree.rec (motive_1 := P) (motive_2 := fun children => ∀ child ∈ children, P child)
  · exact element
  · exact fun _ hmem => absurd hmem List.not_mem_nil
  · exact fun child children hchild hchildren => List.forall_mem_cons.mpr ⟨hchild, hchildren⟩

mutual

/-- `P` holds of the name, the text and the attributes of each element. -/
def All (P : Option XmlText → XmlText → OrderedMap XmlText XmlText → Prop) : XmlTree → Prop
  | .element name text attrs children => P name text attrs ∧ AllChildren P children

def AllChildren (P : Option XmlText → XmlText → OrderedMap XmlText XmlText → Prop) :
    List XmlTree → Prop
  | [] => True
  | child :: children => child.All P ∧ AllChildren P children

end

variable {P : Option XmlText → XmlText → OrderedMap XmlText XmlText → Prop}

theorem allChildren_iff {children : List XmlTree} :
    AllChildren P children ↔ ∀ child ∈ children, child.All P := by
  induction children with
  | nil => simp [AllChildren]
  | cons child children ih => rw [AllChildren, ih, List.forall_mem_cons]

/-- Every element has a name. -/
def Named : XmlTree → Prop := All fun name _ _ => name.isSome

mutual

/-- What `XML::str` prints for a tree with names. -/
def str : XmlTree → XmlText
  | .element name text attrs children =>
      XmlHeap.strElement (name.getD []) text attrs.entries (strChildren children)

def strChildren : List XmlTree → List XmlText
  | [] => []
  | child :: children => child.str :: strChildren children

end

theorem strChildren_eq_map (children : List XmlTree) : strChildren children = children.map str := by
  induction children with
  | nil => rfl
  | cons child children ih => rw [strChildren, ih, List.map_cons]

end XmlTree

namespace XmlHeap

/-- A child: its node, the tree it holds and what it passes. -/
structure Cell where
  addr : ℕ
  tree : XmlTree
  footprint : List ℕ

inductive Holds (heap : XmlHeap) : ℕ → XmlTree → List ℕ → Prop
  | element {addr : ℕ} {xml : Xml} {text : XmlText} {attrs : OrderedMap XmlText XmlText}
      {name : Option XmlText} {cells : List Cell} (hnode : heap.nodes addr = some xml)
      (hname : heap.name xml = some (name.getD [])) (hnull : xml.mName = none ↔ name = none)
      (htext : heap.text xml = some text) (hattrs : heap.attrsAt xml.mAttrs = some attrs)
      (hchildren : heap.childrenAt xml.mChildren = some (cells.map Cell.addr))
      (hcells : ∀ cell ∈ cells, Holds heap cell.addr cell.tree cell.footprint) :
      Holds heap addr (.element name text attrs (cells.map Cell.tree))
        (addr :: cells.flatMap Cell.footprint)

variable {heap : XmlHeap} {addr : ℕ} {t : XmlTree} {footprint : List ℕ} {xml : Xml}

theorem blocks_of_textAt {p : ℕ} {text : XmlText} (htext : heap.textAt (some p) = some text) :
    heap.blocks p = some (.string text) := by
  obtain ⟨block, hblock, hread⟩ := Option.bind_eq_some_iff.mp htext
  cases block with
  | string text' => rw [hblock, Option.some.inj hread]
  | map entries => cases hread
  | list elements => cases hread

theorem blocks_of_attrsAt {p : ℕ} {attrs : OrderedMap XmlText XmlText}
    (hattrs : heap.attrsAt (some p) = some attrs) : heap.blocks p = some (.map attrs) := by
  obtain ⟨block, hblock, hread⟩ := Option.bind_eq_some_iff.mp hattrs
  cases block with
  | string text => cases hread
  | map entries => rw [hblock, Option.some.inj hread]
  | list elements => cases hread

theorem blocks_of_childrenAt {p : ℕ} {elements : List ℕ}
    (hchildren : heap.childrenAt (some p) = some elements) : heap.blocks p = some (.list elements) := by
  obtain ⟨block, hblock, hread⟩ := Option.bind_eq_some_iff.mp hchildren
  cases block with
  | string text => cases hread
  | map entries => cases hread
  | list elements' => rw [hblock, Option.some.inj hread]

theorem Holds.mem (hholds : heap.Holds addr t footprint) : addr ∈ footprint := by
  cases hholds
  exact List.mem_cons_self

theorem length_le_flatMap {cell : Cell} {cells : List Cell} (hmem : cell ∈ cells) :
    cell.footprint.length ≤ (cells.flatMap Cell.footprint).length := by
  obtain ⟨before, after, rfl⟩ := List.append_of_mem hmem
  simp only [List.flatMap_append, List.flatMap_cons, List.length_append]
  omega

theorem Holds.exists_node (hholds : heap.Holds addr t footprint) :
    ∃ xml, heap.nodes addr = some xml := by
  cases hholds with
  | element hnode => exact ⟨_, hnode⟩

/-- An element without children. -/
theorem holds_childless {p : ℕ} {name text : XmlText} {attrs : OrderedMap XmlText XmlText}
    (hnode : heap.nodes addr = some xml) (hpointer : xml.mName = some p)
    (hname : heap.name xml = some name) (htext : heap.text xml = some text)
    (hattrs : heap.attrsAt xml.mAttrs = some attrs) (hchildren : heap.childrenAt xml.mChildren = some []) :
    heap.Holds addr (.element (some name) text attrs []) [addr] := by
  have hnull : xml.mName = none ↔ some name = none := by
    rw [hpointer]
    exact ⟨fun heq => (nomatch heq), fun heq => (nomatch heq)⟩
  have hholds : heap.Holds addr (.element (some name) text attrs (([] : List Cell).map Cell.tree))
      [addr] := .element hnode hname hnull htext hattrs hchildren fun _ hmem => (nomatch hmem)
  exact hholds

/-- A step that reads what is there. -/
theorem lift_bind {α β : Type} {read : Option α} {value : α} (hread : read = some value)
    (next : α → XmlCall β) : ((read : XmlCall α) >>= next) = next value := by
  rw [hread]
  rfl

/-- `str` prints the tree a node holds. -/
theorem Holds.str (hholds : heap.Holds addr t footprint) (hnode : heap.nodes addr = some xml)
    (hnamed : t.Named) {fuel : ℕ} (hfuel : footprint.length ≤ fuel) :
    heap.str fuel xml = pure t.str := by
  induction hholds generalizing fuel xml with
  | @element addr xml' text attrs name cells hnode' hname hnull htext hattrs hchildren hcells ih =>
      obtain rfl := Option.some.inj (hnode.symm.trans hnode')
      obtain ⟨fuel, rfl⟩ := Nat.exists_eq_succ_of_ne_zero
        (Nat.ne_of_gt (Nat.lt_of_lt_of_le (Nat.zero_lt_succ _) hfuel))
      obtain ⟨hsome, hall⟩ := hnamed
      have hpointer : xml.mName ≠ none := fun hnone => by
        rw [hnull.mp hnone] at hsome
        cases hsome
      have hprinted : ((cells.map Cell.addr).mapM fun addr => do
          let child ← (heap.nodes addr : Option Xml)
          heap.str fuel child) = (pure (cells.map fun cell => cell.tree.str) : XmlCall _) := by
        rw [List.mapM_map]
        apply NodeHeap.mapM_eq_pure_map
        intro cell hmem
        obtain ⟨child, hchild⟩ := (hcells cell hmem).exists_node
        have hlength := length_le_flatMap hmem
        rw [List.length_cons] at hfuel
        rw [Function.comp_apply, lift_bind hchild]
        exact ih cell hmem hchild
          (XmlTree.allChildren_iff.mp hall _ (List.mem_map_of_mem hmem)) (by omega)
      rw [XmlHeap.str, if_neg hpointer, lift_bind hname, lift_bind hattrs, lift_bind hchildren,
        hprinted, pure_bind, lift_bind htext, XmlTree.str, XmlTree.strChildren_eq_map, List.map_map]
      rfl

end XmlHeap

end CppProjects
