import CppProjects.Core.Ownership
import CppProjects.Xml.XmlErase

/-!
# `XML` nodes that own what they point to

Each operation but `append` gives every string, map and list one owner, and leaves the trees
alone that it is not called in.
-/

namespace CppProjects

/-- The pointers of an `XML`. -/
inductive XmlField
  | name
  | text
  | attrs
  | children
deriving DecidableEq, Repr

namespace XmlField

def get : XmlField → Xml → Option ℕ
  | .name => Xml.mName
  | .text => Xml.mText
  | .attrs => Xml.mAttrs
  | .children => Xml.mChildren

def set (pointer : Option ℕ) : XmlField → Xml → Xml
  | .name, xml => { xml with mName := pointer }
  | .text, xml => { xml with mText := pointer }
  | .attrs, xml => { xml with mAttrs := pointer }
  | .children, xml => { xml with mChildren := pointer }

/-- What the pointer is declared to point to. -/
def Fits : XmlField → XmlBlock → Prop
  | .name, block | .text, block => ∃ text, block = .string text
  | .attrs, block => ∃ entries, block = .map entries
  | .children, block => ∃ elements, block = .list elements

variable {field field' : XmlField} {pointer : Option ℕ} {xml : Xml} {p : ℕ} {elements elements' : List ℕ}

theorem fits_list (hfits : field.Fits (.list elements)) : field.Fits (.list elements') := by
  cases field with
  | children => exact ⟨elements', rfl⟩
  | name | text | attrs =>
      obtain ⟨content, hcontent⟩ := hfits
      cases hcontent

@[simp]
theorem get_set_self : field.get (field.set pointer xml) = pointer := by cases field <;> rfl

theorem get_set_of_ne (hne : field' ≠ field) : field'.get (field.set pointer xml) = field'.get xml := by
  cases field <;> cases field' <;> first | rfl | exact absurd rfl hne

@[simp]
theorem set_set {pointer' : Option ℕ} : field.set pointer (field.set pointer' xml) = field.set pointer xml := by
  cases field <;> rfl

theorem set_get (hget : field.get xml = pointer) : field.set pointer xml = xml := by
  subst hget
  cases field <;> rfl

theorem mem_pointers_iff : p ∈ pointers xml ↔ ∃ field : XmlField, field.get xml = some p := by
  rw [XmlHeap.mem_pointers]
  constructor
  · rintro (h | h | h | h)
    exacts [⟨.name, h⟩, ⟨.text, h⟩, ⟨.attrs, h⟩, ⟨.children, h⟩]
  · rintro ⟨field, h⟩
    cases field with
    | name => exact .inl h
    | text => exact .inr (.inl h)
    | attrs => exact .inr (.inr (.inl h))
    | children => exact .inr (.inr (.inr h))

theorem forall_iff {P : XmlField → Prop} :
    (∀ field, P field) ↔ P .name ∧ P .text ∧ P .attrs ∧ P .children := by
  constructor
  · exact fun h => ⟨h _, h _, h _, h _⟩
  · rintro ⟨hname, htext, hattrs, hchildren⟩ field
    cases field <;> assumption

/-- The pointers are different ones. -/
theorem nodup_pointers_iff : (pointers xml).Nodup ↔
    ∀ (field field' : XmlField) (p : ℕ), field.get xml = some p → field'.get xml = some p → field = field' := by
  obtain ⟨name, text, attrs, children⟩ := xml
  rw [forall_iff]
  simp only [forall_iff, get, pointers, List.nodup_append]
  cases name <;> cases text <;> cases attrs <;> cases children <;> simp <;> grind

theorem mem_pointers_set : p ∈ pointers (field.set pointer xml) ↔
    pointer = some p ∨ ∃ field', field' ≠ field ∧ field'.get xml = some p := by
  rw [mem_pointers_iff]
  constructor
  · rintro ⟨field', h⟩
    by_cases heq : field' = field
    · subst heq
      rw [get_set_self] at h
      exact .inl h
    · rw [get_set_of_ne heq] at h
      exact .inr ⟨field', heq, h⟩
  · rintro (rfl | ⟨field', hne, h⟩)
    · exact ⟨field, get_set_self⟩
    · exact ⟨field', (get_set_of_ne hne).trans h⟩

theorem nodup_pointers_set (hnodup : (pointers xml).Nodup)
    (hnew : ∀ p, pointer = some p → ∀ field' ≠ field, field'.get xml ≠ some p) :
    (pointers (field.set pointer xml)).Nodup := by
  rw [nodup_pointers_iff] at hnodup ⊢
  intro field₁ field₂ p h₁ h₂
  by_cases heq₁ : field₁ = field
  · by_cases heq₂ : field₂ = field
    · rw [heq₁, heq₂]
    · rw [heq₁, get_set_self] at h₁
      rw [get_set_of_ne heq₂] at h₂
      exact absurd h₂ (hnew p h₁ field₂ heq₂)
  · rw [get_set_of_ne heq₁] at h₁
    by_cases heq₂ : field₂ = field
    · rw [heq₂, get_set_self] at h₂
      exact absurd h₁ (hnew p h₂ field₁ heq₁)
    · rw [get_set_of_ne heq₂] at h₂
      exact hnodup field₁ field₂ p h₁ h₂

end XmlField

namespace XmlHeap

open NodeHeap CInt

variable {heap heap' heap'' : XmlHeap} {a b c p q r : ℕ} {xml pushed : Xml} {block old : XmlBlock}
  {field : XmlField} {loose : Set ℕ} {elements : List ℕ}

/-! ## Owned payload -/

/-- Each block is of the kind that its owner takes it for. -/
structure Tidy (heap : XmlHeap) (loose : Set ℕ) : Prop where
  owned : NodeHeap.Owned heap loose
  typed : ∀ {a xml}, heap.nodes a = some xml → ∀ (field : XmlField) (p : ℕ), field.get xml = some p →
    ∃ block, heap.blocks p = some block ∧ field.Fits block

theorem tidy_empty : Tidy NodeHeap.empty ∅ where
  owned := owned_empty
  typed := fun h => by cases h

theorem points_of_get (field : XmlField) (hnode : heap.nodes a = some xml) (hget : field.get xml = some p) :
    heap.Points a p := ⟨xml, hnode, XmlField.mem_pointers_iff.mpr ⟨field, hget⟩⟩

/-- One pointer of a node is another one now. -/
theorem Tidy.typed_set {pointer : Option ℕ} (htidy : heap.Tidy loose) (hnode : heap.nodes a = some xml)
    (hself : ∀ q, pointer = some q → ∃ block, heap.blocks q = some block ∧ field.Fits block) {xml' : Xml}
    (hnode' : (heap.setNode a (field.set pointer xml)).nodes b = some xml') (field' : XmlField) (q : ℕ)
    (hget : field'.get xml' = some q) : ∃ block, heap.blocks q = some block ∧ field'.Fits block := by
  by_cases heq : b = a
  · rw [heq, nodes_setNode_self, Option.some.injEq] at hnode'
    subst hnode'
    by_cases hfield : field' = field
    · subst hfield
      rw [XmlField.get_set_self] at hget
      exact hself q hget
    · rw [XmlField.get_set_of_ne hfield] at hget
      exact htidy.typed hnode field' q hget
  · exact htidy.typed ((nodes_setNode_of_ne heq).symm.trans hnode') field' q hget

/-- A pointer is taken away, and the block is loose. -/
theorem Tidy.unlink (htidy : heap.Tidy ∅) (hnode : heap.nodes a = some xml)
    (hget : field.get xml = some p) : Tidy (heap.setNode a (field.set none xml)) {p} where
  owned := by
    have hnodup := XmlField.nodup_pointers_iff.mp (htidy.owned.single hnode)
    have hmem : ∀ q, q ∈ pointers (field.set none xml) ↔ q ∈ pointers xml ∧ q ≠ p := by
      intro q
      rw [XmlField.mem_pointers_set, XmlField.mem_pointers_iff, or_iff_right (Option.some_ne_none q).symm]
      constructor
      · rintro ⟨field', hne, h⟩
        refine ⟨⟨field', h⟩, ?_⟩
        rintro rfl
        exact hne (hnodup field' field q h hget)
      · rintro ⟨⟨field', h⟩, hne⟩
        refine ⟨field', ?_, h⟩
        rintro rfl
        exact hne (Option.some.inj (h.symm.trans hget))
    refine htidy.owned.setNode hnode ?_ (fun q hq => .inl ((hmem q).mp hq).1)
      (fun q _ hq => absurd hq (Set.notMem_empty q)) fun q => ?_
    · exact XmlField.nodup_pointers_set (htidy.owned.single hnode) fun q hq => absurd hq (Option.some_ne_none q).symm
    · rw [hmem q, Set.mem_singleton_iff]
      constructor
      · rintro rfl
        exact ⟨.inr (XmlField.mem_pointers_iff.mpr ⟨field, hget⟩), fun h => h.2 rfl⟩
      · rintro ⟨hold | hold, hnot⟩
        · exact absurd hold (Set.notMem_empty q)
        · by_contra hne
          exact hnot ⟨hold, hne⟩
  typed := htidy.typed_set hnode fun q hq => absurd hq (Option.some_ne_none q).symm

/-- A loose block gets an owner. -/
theorem Tidy.link (htidy : heap.Tidy {p}) (hnode : heap.nodes a = some xml) (hnull : field.get xml = none)
    (hblock : heap.blocks p = some block) (hfits : field.Fits block) (hchildren : children block = []) :
    Tidy (heap.setNode a (field.set (some p) xml)) ∅ where
  owned := by
    have hnew : p ∉ pointers xml := fun hmem => htidy.owned.unowned (Set.mem_singleton p) ⟨xml, hnode, hmem⟩
    have hmem : ∀ q, q ∈ pointers (field.set (some p) xml) ↔ q = p ∨ q ∈ pointers xml := by
      intro q
      rw [XmlField.mem_pointers_set, XmlField.mem_pointers_iff, Option.some.injEq, eq_comm]
      refine or_congr_right ⟨fun ⟨field', _, h⟩ => ⟨field', h⟩, fun ⟨field', h⟩ => ⟨field', ?_, h⟩⟩
      rintro rfl
      rw [hnull] at h
      cases h
    have hempty : ∀ c, ¬ heap.Contains p c := by
      rintro c ⟨block', hblock', hc⟩
      obtain rfl := Option.some.inj (hblock.symm.trans hblock')
      rw [hchildren] at hc
      cases hc
    refine htidy.owned.setNode hnode ?_ (fun q hq => ((hmem q).mp hq).symm) ?_ fun q => ?_
    · refine XmlField.nodup_pointers_set (htidy.owned.single hnode) fun q hq field' _ h => hnew ?_
      exact XmlField.mem_pointers_iff.mpr ⟨field', Option.some.inj hq ▸ h⟩
    · rintro q - rfl c hcontains
      exact absurd hcontains (hempty c)
    · rw [hmem q, Set.mem_singleton_iff]
      refine iff_of_false (Set.notMem_empty q) ?_
      rintro ⟨hor, hnot⟩
      exact hnot hor
  typed := htidy.typed_set hnode fun q hq => ⟨block, Option.some.inj hq ▸ hblock, hfits⟩

theorem Tidy.drop (htidy : heap.Tidy {p}) (hblock : heap.blocks p = some block)
    (hempty : ∀ c ∈ children block, ∀ q, ¬ heap.Points c q) : Tidy (heap.drop p block) ∅ where
  owned := by
    have howned := htidy.owned.drop (Set.mem_singleton p) hblock hempty
    rwa [Set.sdiff_self] at howned
  typed := by
    intro b xml hnode field q h
    have hold := (nodes_of_discard hnode).2
    have hne : q ≠ p := by
      rintro rfl
      exact htidy.owned.unowned (Set.mem_singleton q) (points_of_get field hold h)
    rw [blocks_drop_of_ne hne]
    exact htidy.typed hold field q h

theorem Tidy.newBlock (htidy : heap.Tidy ∅) (hchildren : children block = []) :
    Tidy (heap.newBlock block) {heap.top} where
  owned := by
    have howned := htidy.owned.newBlock hchildren
    rwa [insert_empty_eq] at howned
  typed := by
    intro b xml hnode field q h
    have hne : q ≠ heap.top := (htidy.owned.isScoped.pointers_lt (points_of_get field hnode h)).ne
    rw [blocks_newBlock_of_ne hne]
    exact htidy.typed hnode field q h

/-- A new node, which takes what is loose. -/
theorem Tidy.newNode (htidy : heap.Tidy loose) (hnodup : (pointers xml).Nodup)
    (hpointers : ∀ q, q ∈ loose ↔ q ∈ pointers xml)
    (htyped : ∀ (field : XmlField) (q : ℕ), field.get xml = some q →
      ∃ block, heap.blocks q = some block ∧ field.Fits block ∧ children block = []) :
    Tidy (heap.newNode xml) ∅ where
  owned := by
    have hfree : ∀ q ∈ pointers xml, q ∈ loose ∧ ∀ c, ¬ heap.Contains q c := by
      intro q hq
      refine ⟨(hpointers q).mpr hq, ?_⟩
      rintro c ⟨block', hblock', hc⟩
      obtain ⟨field, hget⟩ := XmlField.mem_pointers_iff.mp hq
      obtain ⟨block, hblock, -, hempty⟩ := htyped field q hget
      obtain rfl := Option.some.inj (hblock.symm.trans hblock')
      rw [hempty] at hc
      cases hc
    have howned := htidy.owned.newNode hnodup hfree
    have hnone : {q ∈ loose | q ∉ pointers xml} = (∅ : Set ℕ) := by
      rw [Set.eq_empty_iff_forall_notMem]
      rintro q ⟨hin, hout⟩
      exact hout ((hpointers q).mp hin)
    rwa [hnone] at howned
  typed := by
    intro b xml' hnode field q h
    by_cases heq : b = heap.top
    · rw [heq, nodes_newNode_top, Option.some.injEq] at hnode
      subst hnode
      obtain ⟨block, hblock, hfits, -⟩ := htyped field q h
      exact ⟨block, hblock, hfits⟩
    · exact htidy.typed ((nodes_newNode_of_ne heq).symm.trans hnode) field q h

/-- A node without anything. -/
theorem Tidy.newNull (htidy : heap.Tidy ∅) : Tidy (heap.newNode null) ∅ := by
  refine htidy.newNode List.nodup_nil (fun q => iff_of_false (Set.notMem_empty q) List.not_mem_nil) ?_
  intro field q h
  exact absurd (XmlField.mem_pointers_iff.mpr ⟨field, h⟩) List.not_mem_nil

/-- A node with a name of its own. -/
theorem Tidy.newNamed {name : XmlText} (htidy : heap.Tidy {p}) (hblock : heap.blocks p = some (.string name)) :
    Tidy (heap.newNode { null with mName := some p }) ∅ := by
  refine htidy.newNode (List.nodup_singleton p) (fun q => by simp [pointers, null]) ?_
  intro field q h
  cases field with
  | name => exact ⟨_, Option.some.inj h ▸ hblock, ⟨name, rfl⟩, rfl⟩
  | text | attrs | children => cases h

theorem Tidy.newRoot (htidy : Tidy (heap.newNode xml) ∅) (hscoped : (heap.newRoot xml).Scoped) :
    Tidy (heap.newRoot xml) ∅ where
  owned := { htidy.owned with isScoped := hscoped }
  typed := htidy.typed

/-- Other contents of the same kind. -/
theorem Tidy.setBlock (htidy : heap.Tidy ∅) (hblock : heap.blocks p = some old)
    (hkind : ∀ field : XmlField, field.Fits old → field.Fits block)
    (hscoped : (heap.setBlock p block).Scoped)
    (horder : ∀ a, heap.Points a p → ∀ c ∈ children block, a < c) : Tidy (heap.setBlock p block) ∅ where
  owned := htidy.owned.setBlock hblock hscoped horder
  typed := by
    intro b xml hnode field q h
    obtain ⟨block', hblock', hfits⟩ := htidy.typed hnode field q h
    by_cases heq : q = p
    · subst heq
      obtain rfl := Option.some.inj (hblock.symm.trans hblock')
      exact ⟨block, blocks_setBlock_self, hkind field hfits⟩
    · exact ⟨block', (blocks_setBlock_of_ne heq).trans hblock', hfits⟩

/-! ## Steps -/

/-- What an operation on `a` leaves: the payload is owned, and the trees of the variables that
do not hold `a` are as they were. -/
structure Step (heap heap' : XmlHeap) (a : ℕ) : Prop where
  tidy : heap'.Tidy ∅
  roots : heap'.roots = heap.roots
  same : ∀ r ∈ heap.roots, ¬ heap.InTree r a → Same heap heap' r

theorem Tidy.step_self (htidy : heap.Tidy ∅) (a : ℕ) : Step heap heap a :=
  ⟨htidy, rfl, fun r _ _ => .refl heap r⟩

theorem Step.trans (hstep : Step heap heap' a) (hstep' : Step heap' heap'' a) : Step heap heap'' a where
  tidy := hstep'.tidy
  roots := hstep'.roots.trans hstep.roots
  same := by
    intro r hroot hout
    have hsame := hstep.same r hroot hout
    refine hsame.trans (hstep'.same r (hstep.roots ▸ hroot) fun hin => hout (hsame.inTree_iff.mp hin))

/-- A step on a child is one on its parent. -/
theorem Step.of_child (hstep : Step heap heap' c) (htidy : heap.Tidy ∅) (hchild : heap.Child a c) :
    Step heap heap' a where
  tidy := hstep.tidy
  roots := hstep.roots
  same r hroot hout := hstep.same r hroot fun hin => hout (htidy.owned.inTree_parent hroot hchild hin)

/-- Only `a` and what it points to has changed. -/
theorem Tidy.step_of_ne (htidy : heap.Tidy ∅) (htidy' : heap'.Tidy ∅) (hroots : heap'.roots = heap.roots)
    (hnodes : ∀ b, (heap.nodes b).isSome → b ≠ a → heap'.nodes b = heap.nodes b)
    (hblocks : ∀ b p, heap.Points b p → b ≠ a → heap'.blocks p = heap.blocks p) : Step heap heap' a where
  tidy := htidy'
  roots := hroots
  same _ hroot hout := (frame_of_ne hnodes hblocks).same htidy.owned hroot hout

/-! ## Fields -/

/-- A field was deleted and reset, and the nodes are gone that it held. -/
structure Detached (heap heap' : XmlHeap) (a : ℕ) (xml : Xml) (field : XmlField) : Prop where
  tidy : heap'.Tidy ∅
  node : heap'.nodes a = some (field.set none xml)
  nodes : ∀ b ≠ a, (∀ p, field.get xml = some p → ¬ heap.Contains p b) → heap'.nodes b = heap.nodes b
  dropped : ∀ b p, field.get xml = some p → heap.Contains p b → heap'.nodes b = none
  blocks : ∀ p, field.get xml ≠ some p → heap'.blocks p = heap.blocks p
  absent : ∀ p, field.get xml = some p → heap'.blocks p = none
  top : heap'.top = heap.top
  roots : heap'.roots = heap.roots

/-- The nodes in what is deleted have nothing any more. -/
theorem Tidy.exists_clearField (htidy : heap.Tidy ∅) (hnode : heap.nodes a = some xml) (field : XmlField)
    (hempty : ∀ p c, field.get xml = some p → heap.Contains p c → heap.nodes c = some null) :
    ∃ heap', clearField heap a field.get (field.set none) = some heap' ∧ Detached heap heap' a xml field := by
  have hlive : (heap.nodes a).isSome := Option.isSome_of_eq_some hnode
  cases hget : field.get xml with
  | none =>
      have hself : heap.setNode a (field.set none xml) = heap := setNode_self (by rw [XmlField.set_get hget, hnode])
      refine ⟨heap, ?_, htidy, by rw [XmlField.set_get hget, hnode], fun _ _ _ => rfl, ?_, fun _ _ => rfl,
        ?_, rfl, rfl⟩
      · rw [clearField, hnode, Option.bind_eq_bind, Option.bind_some, hget]
        change heap.write a (field.set none xml) = some heap
        rw [NodeHeap.write, if_pos hlive, hself]
      · intro b p hp
        rw [hget] at hp
        cases hp
      · intro p hp
        rw [hget] at hp
        cases hp
  | some p =>
      obtain ⟨block, hblock, -⟩ := htidy.typed hnode field p hget
      have hpoints := points_of_get field hnode hget
      have hout : a ∉ children block := fun hmem =>
        lt_irrefl a (htidy.owned.order hpoints ⟨block, hblock, hmem⟩)
      have hkept : (heap.drop p block).nodes a = some xml := (nodes_discard_of_notMem hout).trans hnode
      have hnone : ∀ c ∈ children block, ∀ q, ¬ (heap.setNode a (field.set none xml)).Points c q := by
        rintro c hc q ⟨node, hnode', hq⟩
        have hne : c ≠ a := fun heq => hout (heq ▸ hc)
        rw [nodes_setNode_of_ne hne, hempty p c hget ⟨block, hblock, hc⟩, Option.some.injEq] at hnode'
        rw [← hnode'] at hq
        cases hq
      have hdropped := (htidy.unlink hnode hget).drop hblock hnone
      rw [drop_setNode hout] at hdropped
      have hdelete : delete heap (some p) = some (heap.drop p block) := by
        rw [delete, hblock]
        rfl
      refine ⟨(heap.drop p block).setNode a (field.set none xml), ?_, hdropped, nodes_setNode_self, ?_, ?_, ?_,
        ?_, rfl, rfl⟩
      · rw [clearField, hnode, Option.bind_eq_bind, Option.bind_some, hget, hdelete]
        exact if_pos (Option.isSome_of_eq_some hkept)
      · intro b hne hnot
        rw [nodes_setNode_of_ne hne]
        exact nodes_discard_of_notMem fun hmem => hnot p hget ⟨block, hblock, hmem⟩
      · rintro b q hq ⟨block', hblock', hmem⟩
        obtain rfl := Option.some.inj (hget.symm.trans hq)
        obtain rfl := Option.some.inj (hblock.symm.trans hblock')
        rw [nodes_setNode_of_ne fun heq : b = a => hout (heq ▸ hmem)]
        exact nodes_discard_of_mem hmem
      · intro q hq
        have hne : q ≠ p := fun heq => hq (heq ▸ hget)
        have hkeep : (heap.drop p block).blocks q = heap.blocks q := blocks_drop_of_ne hne
        exact hkeep
      · intro q hq
        obtain rfl := Option.some.inj (hget.symm.trans hq)
        have hgone : (heap.drop p block).blocks p = none := blocks_drop_self
        exact hgone

/-- A field that is null gets a block of its own. -/
theorem Tidy.attach (htidy : heap.Tidy ∅) (field : XmlField) (hnode : heap.nodes a = some xml)
    (hnull : field.get xml = none)
    (hfits : field.Fits block) (hchildren : children block = []) :
    Step heap ((heap.newBlock block).setNode a (field.set (some heap.top) xml)) a := by
  refine htidy.step_of_ne ((htidy.newBlock hchildren).link hnode hnull blocks_newBlock_top hfits hchildren) rfl
    (fun b _ hne => nodes_setNode_of_ne hne) fun b p hpoints _ => ?_
  exact blocks_newBlock_of_ne (htidy.owned.isScoped.pointers_lt hpoints).ne

/-- A field that holds no nodes is deleted and reset. -/
theorem Detached.step (hdetached : Detached heap heap' a xml field) (htidy : heap.Tidy ∅)
    (hnode : heap.nodes a = some xml) (hnone : ∀ p c, field.get xml = some p → ¬ heap.Contains p c) :
    Step heap heap' a := by
  refine htidy.step_of_ne hdetached.tidy hdetached.roots
    (fun b _ hne => hdetached.nodes b hne fun p hp => hnone p b hp) fun b p hpoints hne => ?_
  exact hdetached.blocks p fun hget => hne (htidy.owned.unique hpoints (points_of_get field hnode hget))

/-- A string or a map holds no nodes. -/
theorem Tidy.not_contains (htidy : heap.Tidy ∅) (hnode : heap.nodes a = some xml) (hfield : field ≠ .children)
    (hget : field.get xml = some p) (c : ℕ) : ¬ heap.Contains p c := by
  rintro ⟨block, hblock, hmem⟩
  obtain ⟨block', hblock', hfits⟩ := htidy.typed hnode field p hget
  obtain rfl := Option.some.inj (hblock.symm.trans hblock')
  cases field with
  | name | text | attrs =>
      obtain ⟨content, rfl⟩ := hfits
      cases hmem
  | children => exact hfield rfl

/-- A block takes the place of another one. -/
theorem Tidy.exists_replace (htidy : heap.Tidy ∅) (hnode : heap.nodes a = some xml) (field : XmlField)
    (hfield : field ≠ .children) (hfits : field.Fits block) (hchildren : children block = []) :
    ∃ heap', (do
      let heap ← delete heap (field.get xml)
      (heap.newBlock block).write a (field.set (some heap.top) xml)) = some heap' ∧ Step heap heap' a := by
  have hnone : ∀ p c, field.get xml = some p → ¬ heap.Contains p c :=
    fun p c hget => htidy.not_contains hnode hfield hget c
  obtain ⟨cleared, hclear, hdetached⟩ := htidy.exists_clearField hnode field fun p c hget hcontains =>
    absurd hcontains (hnone p c hget)
  rw [clearField, hnode, Option.bind_eq_bind, Option.bind_some] at hclear
  obtain ⟨middle, hdelete, hwrite⟩ := Option.bind_eq_some_iff.mp hclear
  obtain ⟨hlive, rfl⟩ := write_eq_some hwrite
  have hattach := hdetached.tidy.attach field hdetached.node XmlField.get_set_self hfits hchildren
  refine ⟨_, ?_, (hdetached.step htidy hnode hnone).trans hattach⟩
  rw [hdelete, XmlField.set_set, newBlock_setNode, setNode_setNode]
  exact if_pos hlive

theorem Tidy.exists_setName (htidy : heap.Tidy ∅) (hnode : heap.nodes a = some xml) (name : XmlText) :
    ∃ heap', setName heap a name = some heap' ∧ Step heap heap' a := by
  rw [setName, hnode]
  exact htidy.exists_replace hnode .name nofun ⟨name, rfl⟩ rfl

theorem Tidy.exists_setText (htidy : heap.Tidy ∅) (hnode : heap.nodes a = some xml) (text : XmlText) :
    ∃ heap', setText heap a text = some heap' ∧ Step heap heap' a := by
  rw [setText, hnode]
  exact htidy.exists_replace hnode .text nofun ⟨text, rfl⟩ rfl

/-! ## Attributes -/

theorem Tidy.exists_ensureAttrs (htidy : heap.Tidy ∅) (hnode : heap.nodes a = some xml) :
    ∃ heap' xml' p, ensureAttrs heap a = some heap' ∧ Step heap heap' a ∧ heap'.nodes a = some xml' ∧
      xml'.mAttrs = some p := by
  cases hget : xml.mAttrs with
  | some p =>
      refine ⟨heap, xml, p, ?_, htidy.step_self a, hnode, hget⟩
      rw [ensureAttrs, hnode, Option.bind_eq_bind, Option.bind_some, hget]
  | none =>
      refine ⟨_, _, heap.top, ?_, htidy.attach .attrs hnode hget ⟨OrderedMap.empty, rfl⟩ rfl,
        nodes_setNode_self, rfl⟩
      rw [ensureAttrs, hnode, Option.bind_eq_bind, Option.bind_some, hget]
      exact if_pos (Option.isSome_of_eq_some hnode)

/-- Only what `a` points to has changed. -/
theorem Tidy.step_setBlock (htidy : heap.Tidy ∅) (hpoints : heap.Points a p)
    (htidy' : Tidy (heap.setBlock p block) ∅) : Step heap (heap.setBlock p block) a := by
  refine htidy.step_of_ne htidy' rfl (fun _ _ _ => rfl) fun b q hpoints' hne => blocks_setBlock_of_ne ?_
  rintro rfl
  exact hne (htidy.owned.unique hpoints' hpoints)

theorem Tidy.exists_setAttr (htidy : heap.Tidy ∅) (hnode : heap.nodes a = some xml) (key val : XmlText) :
    ∃ heap', setAttr heap a key val = some heap' ∧ Step heap heap' a := by
  obtain ⟨middle, xml', p, hensure, hstep, hnode', hget⟩ := htidy.exists_ensureAttrs hnode
  obtain ⟨block, hblock, entries, rfl⟩ := hstep.tidy.typed hnode' .attrs p hget
  have hread : attrsAt middle (some p) = some entries := by
    rw [attrsAt, hblock]
    rfl
  have hvalue : setAttr heap a key val = if (entries.find? key).isSome then some middle
      else some (middle.setBlock p (.map (entries.insert key val))) := by
    rw [setAttr, hensure, Option.bind_eq_bind, Option.bind_some, hnode', Option.bind_eq_bind,
      Option.bind_some, hget, Option.bind_eq_bind, Option.bind_some, hread]
    rfl
  rw [hvalue]
  split_ifs
  · exact ⟨middle, rfl, hstep⟩
  · have hempty : ∀ c, c ∉ children (XmlBlock.map (entries.insert key val)) := fun c => List.not_mem_nil
    have hscoped : (middle.setBlock p (.map (entries.insert key val))).Scoped :=
      hstep.tidy.owned.isScoped.setBlock (hstep.tidy.owned.isScoped.blocks_lt hblock) List.nodup_nil
        (fun c hc => absurd hc (hempty c)) (fun c hc => absurd hc (hempty c)) fun c _ => hempty c
    have htidy' : Tidy (middle.setBlock p (.map (entries.insert key val))) ∅ := by
      refine hstep.tidy.setBlock hblock ?_ hscoped fun _ _ c hc => absurd hc (hempty c)
      intro field hfits
      cases field with
      | attrs => exact ⟨_, rfl⟩
      | name | text | children =>
          obtain ⟨content, hcontent⟩ := hfits
          cases hcontent
    exact ⟨_, rfl, hstep.trans (hstep.tidy.step_setBlock (points_of_get .attrs hnode' hget) htidy')⟩

/-! ## Children -/

/-- `elements` are the children of `a`, in the list at `p`. -/
structure Lists (heap : XmlHeap) (a p : ℕ) (elements : List ℕ) : Prop where
  node : ∃ xml, heap.nodes a = some xml ∧ xml.mChildren = some p
  block : heap.blocks p = some (.list elements)

theorem Lists.points (hlists : heap.Lists a p elements) : heap.Points a p := by
  obtain ⟨xml, hnode, hget⟩ := hlists.node
  exact points_of_get .children hnode hget

theorem Lists.contains (hlists : heap.Lists a p elements) (hc : c ∈ elements) : heap.Contains p c :=
  ⟨_, hlists.block, hc⟩

theorem Lists.child (hlists : heap.Lists a p elements) (hc : c ∈ elements) : heap.Child a c :=
  ⟨p, hlists.points, hlists.contains hc⟩

theorem Lists.childrenAt (hlists : heap.Lists a p elements) :
    XmlHeap.childrenAt heap (some p) = some elements := by
  rw [XmlHeap.childrenAt, hlists.block]
  rfl

theorem Tidy.lists (htidy : heap.Tidy ∅) (hnode : heap.nodes a = some xml) (hget : xml.mChildren = some p) :
    ∃ elements, heap.Lists a p elements := by
  obtain ⟨block, hblock, elements, rfl⟩ := htidy.typed hnode .children p hget
  exact ⟨elements, ⟨xml, hnode, hget⟩, hblock⟩

/-- The children that a node has, in the list that it has then. -/
theorem Tidy.exists_ensureChildren (htidy : heap.Tidy ∅) (hnode : heap.nodes a = some xml) :
    ∃ heap' p elements, ensureChildren heap a = some heap' ∧ Step heap heap' a ∧
      heap'.Lists a p elements ∧ ∀ b ≠ a, heap'.nodes b = heap.nodes b := by
  cases hget : xml.mChildren with
  | some p =>
      obtain ⟨elements, hlists⟩ := htidy.lists hnode hget
      refine ⟨heap, p, elements, ?_, htidy.step_self a, hlists, fun _ _ => rfl⟩
      rw [ensureChildren, hnode, Option.bind_eq_bind, Option.bind_some, hget]
  | none =>
      refine ⟨_, heap.top, [], ?_, htidy.attach .children hnode hget ⟨[], rfl⟩ rfl,
        ⟨⟨_, nodes_setNode_self, rfl⟩, blocks_newBlock_top⟩, fun b hne => nodes_setNode_of_ne hne⟩
      rw [ensureChildren, hnode, Option.bind_eq_bind, Option.bind_some, hget]
      exact if_pos (Option.isSome_of_eq_some hnode)

/-- A node that takes what is loose is pushed. -/
theorem Lists.exists_pushBack (hlists : heap.Lists a p elements) (htidy : heap.Tidy loose)
    (hnew : Tidy (heap.newNode pushed) ∅) :
    ∃ heap', XmlHeap.pushBack heap a pushed = some heap' ∧ heap'.Tidy ∅ ∧ heap'.roots = heap.roots ∧
      heap'.Lists a p (elements ++ [heap.top]) ∧ (∀ b, (heap.nodes b).isSome → heap'.nodes b = heap.nodes b) ∧
      ∀ q ≠ p, heap'.blocks q = heap.blocks q := by
  obtain ⟨xml, hnode, hget⟩ := hlists.node
  have hkept : ∀ b, (heap.nodes b).isSome → (heap.newNode pushed).nodes b = heap.nodes b := by
    intro b hb
    obtain ⟨node, hb⟩ := Option.isSome_iff_exists.mp hb
    exact nodes_newNode_of_ne (htidy.owned.isScoped.nodes_lt hb).ne
  have hblock : (heap.newNode pushed).blocks p = some (.list elements) := hlists.block
  refine ⟨(heap.newNode pushed).setBlock p (.list (elements ++ [heap.top])), ?_, ?_, rfl, ?_, hkept,
    fun q hne => blocks_setBlock_of_ne hne⟩
  · rw [XmlHeap.pushBack, hnode, Option.bind_eq_bind, Option.bind_some, hget, Option.bind_eq_bind,
      Option.bind_some, hlists.childrenAt]
    rfl
  · refine hnew.setBlock hblock (fun _ => XmlField.fits_list)
      (scoped_push htidy.owned.isScoped hnew.owned.isScoped hlists.block) fun b hpoints c hc => ?_
    -- the owner of the list is older than the new node
    have hpoints' : (heap.newNode pushed).Points a p := by
      refine ⟨xml, (hkept a (Option.isSome_of_eq_some hnode)).trans hnode, ?_⟩
      exact XmlField.mem_pointers_iff.mpr ⟨.children, hget⟩
    have howner : b = a := hnew.owned.unique hpoints hpoints'
    rcases List.mem_append.mp hc with hold | hnew'
    · exact howner ▸ htidy.owned.order hlists.points (hlists.contains hold)
    · rw [List.mem_singleton.mp hnew', howner]
      exact htidy.owned.isScoped.nodes_lt hnode
  · exact ⟨⟨xml, (hkept a (Option.isSome_of_eq_some hnode)).trans hnode, hget⟩, blocks_setBlock_self⟩

theorem Lists.exists_pushNull (hlists : heap.Lists a p elements) (htidy : heap.Tidy ∅) :
    ∃ heap', XmlHeap.pushBack heap a null = some heap' ∧ Step heap heap' a ∧
      heap'.Lists a p (elements ++ [heap.top]) := by
  obtain ⟨heap', hpush, htidy', hroots, hlists', hnodes, hblocks⟩ := hlists.exists_pushBack htidy htidy.newNull
  refine ⟨heap', hpush, htidy.step_of_ne htidy' hroots (fun b hb _ => hnodes b hb) ?_, hlists'⟩
  intro b q hpoints hne
  refine hblocks q ?_
  rintro rfl
  exact hne (htidy.owned.unique hpoints hlists.points)

/-- The list is padded as long as `i++` stays in range. -/
theorem Lists.exists_pushNulls (count : ℕ) (hlists : heap.Lists a p elements) (htidy : heap.Tidy ∅) {i : ℤ}
    (hfits : i + count ≤ intMax) :
    ∃ heap' added, XmlHeap.pushNulls a count i heap = some heap' ∧ Step heap heap' a ∧
      heap'.Lists a p (elements ++ added) ∧ added.length = count := by
  induction count generalizing heap elements i with
  | zero => exact ⟨heap, [], rfl, htidy.step_self a, by rwa [List.append_nil], rfl⟩
  | succ count ih =>
      rw [Nat.cast_succ] at hfits
      obtain ⟨middle, hpush, hstep, hmiddle⟩ := hlists.exists_pushNull htidy
      obtain ⟨heap', added, hrest, hstep', hlast, hlength⟩ := ih hmiddle hstep.tidy (i := i + 1) (by omega)
      refine ⟨heap', heap.top :: added, ?_, hstep.trans hstep', ?_, by rw [List.length_cons, hlength]⟩
      · have hne : i ≠ intMax := by omega
        rw [XmlHeap.pushNulls, hpush, Option.bind_eq_bind, Option.bind_some, if_neg hne]
        exact hrest
      · rwa [List.append_assoc] at hlast

/-- `operator[](int)` with an index less than the largest `int`. -/
theorem Tidy.exists_index (htidy : heap.Tidy ∅) (hnode : heap.nodes a = some xml) {i : ℤ}
    (hlt : i < intMax) : ∃ heap' outcome, index heap a i = some (heap', outcome) ∧ Step heap heap' a := by
  rw [index]
  split_ifs with hneg
  · exact ⟨heap, _, rfl, htidy.step_self a⟩
  · obtain ⟨middle, p, elements, hensure, hstep, hlists, -⟩ := htidy.exists_ensureChildren hnode
    obtain ⟨xml', hnode', hget⟩ := hlists.node
    rw [hensure, Option.bind_eq_bind, Option.bind_some, hnode', Option.bind_eq_bind, Option.bind_some, hget,
      hlists.childrenAt, Option.bind_eq_bind, Option.bind_some]
    have hsize := toInt_le elements.length
    dsimp only
    split_ifs with hinside
    · have hin : i.toNat < elements.length := by omega
      rw [List.getElem?_eq_getElem hin]
      exact ⟨middle, _, rfl, hstep⟩
    · obtain ⟨heap', added, hpush, hstep', hlast, hlength⟩ := hlists.exists_pushNulls
        (i + 1 - toInt elements.length).toNat hstep.tidy (i := toInt elements.length) (by omega)
      have hsome : (elements ++ added).getLast?.isSome := by
        refine List.getLast?_isSome.mpr (List.append_ne_nil_of_right_ne_nil _ (List.ne_nil_of_length_pos ?_))
        omega
      obtain ⟨last, hlast'⟩ := Option.isSome_iff_exists.mp hsome
      rw [hpush, Option.bind_eq_bind, Option.bind_some, hlast.childrenAt, Option.bind_some, hlast']
      exact ⟨heap', _, rfl, hstep.trans hstep'⟩

theorem Tidy.exists_name (htidy : heap.Tidy ∅) (hnode : heap.nodes a = some xml) :
    ∃ text, XmlHeap.name heap xml = some text := by
  rw [XmlHeap.name]
  cases hget : xml.mName with
  | none => exact ⟨[], rfl⟩
  | some p =>
      obtain ⟨block, hblock, text, rfl⟩ := htidy.typed hnode .name p hget
      rw [textAt, hblock]
      exact ⟨text, rfl⟩

theorem Tidy.exists_findName (htidy : heap.Tidy ∅) (name : XmlText)
    (hlive : ∀ c ∈ elements, (heap.nodes c).isSome) : ∃ found, findName heap name elements = some found := by
  induction elements with
  | nil => exact ⟨none, rfl⟩
  | cons c rest ih =>
      obtain ⟨child, hchild⟩ := Option.isSome_iff_exists.mp (hlive c List.mem_cons_self)
      obtain ⟨text, htext⟩ := htidy.exists_name hchild
      rw [findName, hchild, Option.bind_eq_bind, Option.bind_some, htext, Option.bind_eq_bind, Option.bind_some]
      split_ifs
      · exact ⟨some c, rfl⟩
      · exact ih fun b hb => hlive b (List.mem_cons_of_mem _ hb)

theorem Tidy.exists_indexName (htidy : heap.Tidy ∅) (hnode : heap.nodes a = some xml) (name : XmlText) :
    ∃ heap' addr, indexName heap a name = some (heap', addr) ∧ Step heap heap' a := by
  obtain ⟨middle, p, elements, hensure, hstep, hlists, -⟩ := htidy.exists_ensureChildren hnode
  obtain ⟨xml', hnode', hget⟩ := hlists.node
  obtain ⟨found, hfound⟩ := hstep.tidy.exists_findName name fun c hc =>
    hstep.tidy.owned.isScoped.live (hlists.contains hc)
  rw [indexName, hensure, Option.bind_eq_bind, Option.bind_some, hnode', Option.bind_eq_bind, Option.bind_some,
    hget, hlists.childrenAt, Option.bind_eq_bind, Option.bind_some, hfound, Option.bind_eq_bind, Option.bind_some]
  cases found with
  | some addr => exact ⟨middle, addr, rfl, hstep⟩
  | none =>
      have hp : p < middle.top := hstep.tidy.owned.isScoped.blocks_lt hlists.block
      have hnamed : Lists (middle.newBlock (.string name)) a p elements :=
        ⟨hlists.node, (blocks_newBlock_of_ne hp.ne).trans hlists.block⟩
      have htidy' : Tidy (middle.newBlock (.string name)) {middle.top} := hstep.tidy.newBlock rfl
      obtain ⟨heap', hpush, hpushed, hroots, -, hnodes, hblocks⟩ :=
        hnamed.exists_pushBack htidy' (htidy'.newNamed blocks_newBlock_top)
      refine ⟨heap', middle.top + 1, ?_, hstep.trans (hstep.tidy.step_of_ne hpushed hroots
        (fun b hb _ => hnodes b hb) ?_)⟩
      · change (XmlHeap.pushBack (middle.newBlock (.string name)) a _).bind _ = _
        rw [hpush]
        rfl
      · intro b q hpoints hne
        have hother : q ≠ p := by
          rintro rfl
          exact hne (hstep.tidy.owned.unique hpoints hlists.points)
        exact (hblocks q hother).trans
          (blocks_newBlock_of_ne (hstep.tidy.owned.isScoped.pointers_lt hpoints).ne)

end XmlHeap

end CppProjects
