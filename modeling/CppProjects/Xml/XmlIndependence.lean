import CppProjects.Core.TransitionSystem
import CppProjects.Xml.XmlEmptied

/-!
# When `XML` trees are independent

`append`, the copy constructor and `operator=` copy pointers.  As long as only empty elements
are copied, each payload has one owner, and what is done in one tree is not seen in the others.
-/

namespace CppProjects

namespace XmlHeap

open NodeHeap CInt

variable {heap heap' : XmlHeap} {a c r fuel : ℕ} {xml source : Xml}

/-! ## `str` -/

/-- A step that reads what is not there. -/
theorem lift_bind_none {α β : Type} (next : α → XmlCall β) :
    (((none : Option α) : XmlCall α) >>= next) = ExceptT.mk none := rfl

theorem throw_bind_congr {α β : Type} (text : String) (next next' : α → XmlCall β) :
    ((throw text : XmlCall α) >>= next) = (throw text >>= next') := rfl

/-- What is as it was prints as it did. -/
theorem str_of_same (hsame : Same heap heap' r) {b : ℕ} (hbelow : heap.InTree r b)
    (hnode : heap.nodes b = some xml) : heap'.str fuel xml = heap.str fuel xml := by
  induction fuel generalizing b xml with
  | zero => rfl
  | succ fuel ih =>
      have hblocks : ∀ q ∈ pointers xml, heap'.blocks q = heap.blocks q :=
        fun q hq => hsame.blocks b q hbelow ⟨xml, hnode, hq⟩
      have hname : heap'.name xml = heap.name xml :=
        textAt_congr fun q hq => hblocks q (mem_pointers.mpr (.inl hq))
      have htext : heap'.text xml = heap.text xml :=
        textAt_congr fun q hq => hblocks q (mem_pointers.mpr (.inr (.inl hq)))
      have hattrs : heap'.attrsAt xml.mAttrs = heap.attrsAt xml.mAttrs :=
        attrsAt_congr fun q hq => hblocks q (mem_pointers.mpr (.inr (.inr (.inl hq))))
      have hchildren : heap'.childrenAt xml.mChildren = heap.childrenAt xml.mChildren :=
        childrenAt_congr fun q hq => hblocks q (mem_pointers.mpr (.inr (.inr (.inr hq))))
      rw [XmlHeap.str, XmlHeap.str, hname, htext, hattrs, hchildren]
      split_ifs
      · exact throw_bind_congr _ _ _
      · refine bind_congr fun name => bind_congr fun attrs => ?_
        cases hread : heap.childrenAt xml.mChildren with
        | none => rw [lift_bind_none, lift_bind_none]
        | some elements =>
            have hprinted : ∀ c ∈ elements, (do
                let child ← (heap'.nodes c : Option Xml)
                heap'.str fuel child) = (do
                let child ← (heap.nodes c : Option Xml)
                heap.str fuel child : XmlCall XmlText) := by
              intro c hc
              obtain ⟨q, hq, hcontains⟩ := (contains_iff_of_childrenAt hread).mpr hc
              have hbelow' : heap.InTree r c :=
                hbelow.tail ⟨q, ⟨xml, hnode, mem_pointers.mpr (.inr (.inr (.inr hq)))⟩, hcontains⟩
              rw [hsame.nodes c hbelow']
              cases hchild : heap.nodes c with
              | none => rw [lift_bind_none, lift_bind_none]
              | some child =>
                  rw [lift_bind rfl, lift_bind rfl]
                  exact ih hbelow' hchild
            rw [lift_bind rfl, lift_bind rfl, NodeHeap.mapM_congr hprinted]

/-! ## Copies of pointers -/

theorem exists_pointer (hne : xml ≠ null) : ∃ q, q ∈ pointers xml := by
  by_contra hnone
  refine hne ?_
  obtain ⟨name, text, attrs, children⟩ := xml
  cases name <;> cases text <;> cases attrs <;> cases children <;> simp [pointers] at hnone
  rfl

/-- An empty element that is copied shares nothing. -/
theorem Tidy.exists_append (htidy : heap.Tidy ∅) (hnode : heap.nodes a = some xml)
    (hnull : heap.nodes c = some null) (hne : c ≠ a) :
    ∃ heap', append heap a c = some heap' ∧ Step heap heap' a := by
  obtain ⟨middle, p, elements, hensure, hstep, hlists, hnodes⟩ := htidy.exists_ensureChildren hnode
  obtain ⟨heap', hpush, hstep', -⟩ := hlists.exists_pushNull hstep.tidy
  refine ⟨heap', ?_, hstep.trans hstep'⟩
  rw [append, hensure, Option.bind_eq_bind, Option.bind_some, hnodes c hne, hnull]
  exact hpush

/-- A copy points to what is pointed to already. -/
theorem exists_shared (hscoped : heap.Scoped) (hnode : heap.nodes c = some source) (hne : source ≠ null) :
    ∃ q, (heap.newNode (copied source)).Points c q ∧ (heap.newNode (copied source)).Points heap.top q ∧
      c ≠ heap.top := by
  obtain ⟨q, hq⟩ := exists_pointer hne
  have hlt := (hscoped.nodes_lt hnode).ne
  exact ⟨q, ⟨source, (nodes_newNode_of_ne hlt).trans hnode, hq⟩, ⟨source, nodes_newNode_top, hq⟩, hlt⟩

theorem Tidy.not_soleOwners_append (htidy : heap.Tidy ∅) (hnode : heap.nodes a = some xml)
    (hother : heap.nodes c = some source) (hshared : c = a ∨ source ≠ null)
    (happend : append heap a c = some heap') : ¬ heap'.SoleOwners := by
  obtain ⟨middle, p, elements, hensure, hstep, hlists, hnodes⟩ := htidy.exists_ensureChildren hnode
  obtain ⟨xml', hnode', hget⟩ := hlists.node
  obtain ⟨source', hsource, hne⟩ : ∃ source', middle.nodes c = some source' ∧ source' ≠ null := by
    by_cases heq : c = a
    · refine ⟨xml', heq ▸ hnode', ?_⟩
      rintro rfl
      cases hget
    · exact ⟨source, (hnodes c heq).trans hother, hshared.resolve_left heq⟩
  rw [append, hensure, Option.bind_eq_bind, Option.bind_some, hsource, Option.bind_eq_bind, Option.bind_some,
    XmlHeap.pushBack, hnode', Option.bind_eq_bind, Option.bind_some, hget, Option.bind_eq_bind, Option.bind_some,
    hlists.childrenAt, Option.bind_eq_bind, Option.bind_some, Option.some.injEq] at happend
  subst happend
  obtain ⟨q, hpoints, hpoints', hlt⟩ := exists_shared hstep.tidy.owned.isScoped hsource hne
  exact fun howners => hlt (howners.unique hpoints hpoints')

/-- `operator=` from the element itself, or from an empty element that is not below it. -/
theorem Tidy.exists_assign (htidy : heap.Tidy ∅) (hlive : (heap.nodes a).isSome)
    (hnull : c = a ∨ heap.nodes c = some null ∧ ¬ heap.InTree a c) (hfuel : heap.top ≤ fuel) :
    ∃ heap', assign heap fuel a c = some heap' ∧ Step heap heap' a := by
  obtain ⟨heap', hclear, hemptied⟩ := htidy.exists_clear hlive (hfuel.trans (Nat.le_add_left fuel a))
  have hnode : heap'.nodes a = some null := hemptied.nodes_null a rfl
  have hsource : heap'.nodes c = some null := by
    rcases hnull with rfl | ⟨hnull, hout⟩
    · exact hnode
    · exact (hemptied.shrinks.nodes c fun _ ha => ha ▸ hout).trans hnull
  refine ⟨heap', ?_, hemptied.step htidy⟩
  rw [assign, hclear, Option.bind_eq_bind, Option.bind_some, hsource, Option.bind_eq_bind, Option.bind_some,
    NodeHeap.write, if_pos (Option.isSome_of_eq_some hnode)]
  exact congrArg some (setNode_self hnode)

theorem Tidy.not_soleOwners_assign (htidy : heap.Tidy ∅) (hlive : (heap.nodes a).isSome)
    (hother : heap.nodes c = some source) (hne : c ≠ a) (hshared : source ≠ null ∨ heap.InTree a c)
    (hfuel : heap.top ≤ fuel) (hassign : assign heap fuel a c = some heap') : ¬ heap'.SoleOwners := by
  obtain ⟨middle, hclear, hemptied⟩ := htidy.exists_clear hlive (hfuel.trans (Nat.le_add_left fuel a))
  rw [assign, hclear, Option.bind_eq_bind, Option.bind_some] at hassign
  by_cases hbelow : heap.InTree a c
  · -- the element to copy is gone
    rw [hemptied.gone a rfl c hne hbelow] at hassign
    cases hassign
  · have hsource := (hemptied.shrinks.nodes c fun _ ha => ha ▸ hbelow).trans hother
    rw [hsource, Option.bind_eq_bind, Option.bind_some] at hassign
    obtain ⟨-, rfl⟩ := write_eq_some hassign
    intro howners
    obtain ⟨q, hq⟩ := exists_pointer (hshared.resolve_right hbelow)
    exact hne (howners.unique ⟨source, (nodes_setNode_of_ne hne).trans hsource, hq⟩
      ⟨source, nodes_setNode_self, hq⟩)

/-- An index that is the largest `int` makes the loop go on behind it. -/
theorem Tidy.index_eq_none (htidy : heap.Tidy ∅) (hnode : heap.nodes a = some xml) {i : ℤ}
    (hle : intMax ≤ i) : index heap a i = none := by
  obtain ⟨middle, p, elements, hensure, -, hlists, -⟩ := htidy.exists_ensureChildren hnode
  obtain ⟨xml', hnode', hget⟩ := hlists.node
  have hmax : (intMax : ℤ) = 2147483647 := rfl
  have hsize := (toInt_spec elements.length).1.2
  have hneg : ¬ i < 0 := by omega
  have hbehind : ¬ i < toInt elements.length := by omega
  rw [index, if_neg hneg, hensure, Option.bind_eq_bind, Option.bind_some, hnode', Option.bind_eq_bind,
    Option.bind_some, hget, hlists.childrenAt, Option.bind_eq_bind, Option.bind_some]
  dsimp only
  rw [if_neg hbehind, pushNulls_overflow _ (by omega) (by omega)]
  rfl

/-! ## Constructors -/

/-- A new variable leaves the others. -/
theorem Tidy.same_of_newRoot (htidy : heap.Tidy ∅) (hnodes : ∀ b < heap.top, heap'.nodes b = heap.nodes b)
    (hblocks : ∀ q < heap.top, heap'.blocks q = heap.blocks q) (hroot : r ∈ heap.roots) : Same heap heap' r where
  nodes := by
    intro b hbelow
    have hlive := htidy.owned.inTree_isSome hbelow (htidy.owned.isScoped.roots_live r hroot)
    obtain ⟨node, hnode⟩ := Option.isSome_iff_exists.mp hlive
    exact hnodes b (htidy.owned.isScoped.nodes_lt hnode)
  blocks := fun _ q _ hpoints => hblocks q (htidy.owned.isScoped.pointers_lt hpoints)

theorem Tidy.construct (htidy : heap.Tidy ∅) : Tidy (XmlHeap.construct heap) ∅ :=
  htidy.newNull.newRoot (htidy.owned.isScoped.newRoot fun _ hq => absurd hq List.not_mem_nil)

theorem Tidy.ofName (htidy : heap.Tidy ∅) (name : XmlText) : Tidy (XmlHeap.ofName heap name) ∅ := by
  have hblock : Tidy (heap.newBlock (.string name)) {heap.top} := htidy.newBlock rfl
  refine (hblock.newNamed blocks_newBlock_top).newRoot (hblock.owned.isScoped.newRoot fun q hq => ?_)
  obtain rfl : q = heap.top := List.mem_singleton.mp hq
  exact Nat.lt_succ_self _

end XmlHeap

/-! ## Runs -/

/-- A constructor, or a call on the node `this`. -/
inductive XmlOp
  | construct
  | ofName (name : XmlText)
  | copyConstruct (other : ℕ)
  | setName (this : ℕ) (name : XmlText)
  | setText (this : ℕ) (text : XmlText)
  | setAttr (this : ℕ) (key val : XmlText)
  | index (this : ℕ) (index : ℤ)
  | indexName (this : ℕ) (name : XmlText)
  | append (this child : ℕ)
  | assign (this other : ℕ)
  | remove (this : ℕ) (index : ℤ)
  | removeName (this : ℕ) (name : XmlText)
  | clear (this : ℕ)
deriving DecidableEq, Repr

namespace XmlOp

open XmlHeap NodeHeap CInt

/-- The node that is called. -/
def this? : XmlOp → Option ℕ
  | .construct | .ofName _ | .copyConstruct _ => none
  | .setName this _ | .setText this _ | .setAttr this _ _ | .index this _ | .indexName this _
  | .append this _ | .assign this _ | .remove this _ | .removeName this _ | .clear this => some this

/-- The node that is passed. -/
def other? : XmlOp → Option ℕ
  | .copyConstruct other | .append _ other | .assign _ other => some other
  | _ => none

/-- The nodes are there. -/
def live (heap : XmlHeap) (op : XmlOp) : Bool :=
  op.this?.all (fun a => (heap.nodes a).isSome) && op.other?.all fun a => (heap.nodes a).isSome

/-- What a call leaves, also where it throws. -/
def run (heap : XmlHeap) : XmlOp → Option XmlHeap
  | .construct => some (XmlHeap.construct heap)
  | .ofName name => some (XmlHeap.ofName heap name)
  | .copyConstruct other => XmlHeap.copyConstruct heap other
  | .setName this name => XmlHeap.setName heap this name
  | .setText this text => XmlHeap.setText heap this text
  | .setAttr this key val => XmlHeap.setAttr heap this key val
  | .index this i => (XmlHeap.index heap this i).map Prod.fst
  | .indexName this name => (XmlHeap.indexName heap this name).map Prod.fst
  | .append this child => XmlHeap.append heap this child
  | .assign this other => XmlHeap.assign heap heap.top this other
  | .remove this i => (XmlHeap.remove heap heap.top this i).map Prod.fst
  | .removeName this name => XmlHeap.removeName heap heap.top this name
  | .clear this => XmlHeap.clear heap.top this heap

/-- An element that is not empty is copied, an element is appended to itself, what is assigned
from is cleared away before, or the list is padded behind the largest `int`. -/
def Breaks (heap : XmlHeap) : XmlOp → Prop
  | .copyConstruct other => heap.nodes other ≠ some null
  | .append this child => child = this ∨ heap.nodes child ≠ some null
  | .assign this other => other ≠ this ∧ (heap.nodes other ≠ some null ∨ heap.InTree this other)
  | .index _ i => intMax ≤ i
  | _ => False

/-- The variables that do not hold the node are there after the call, and print what they did. -/
def Independent (heap : XmlHeap) (op : XmlOp) : Prop :=
  ∃ heap', op.run heap = some heap' ∧ ∀ r ∈ heap.roots, (∀ a, op.this? = some a → ¬ heap.InTree r a) →
    r ∈ heap'.roots ∧ ∃ xml, heap.nodes r = some xml ∧ heap'.nodes r = some xml ∧
      ∀ fuel, heap'.str fuel xml = heap.str fuel xml

/-- Calls on any nodes that are there; `none` is behind a call without an outcome. -/
def system : TransitionSystem (Option XmlHeap) XmlOp where
  initial s := s = some NodeHeap.empty
  step s op := s.bind fun heap => if op.live heap then some (op.run heap) else none

variable {heap heap' : XmlHeap} {op : XmlOp} {a : ℕ}

/-- What a call leaves, of the variables that do not hold `this`. -/
structure Spares (heap heap' : XmlHeap) (this : Option ℕ) : Prop where
  tidy : heap'.Tidy ∅
  roots : heap.roots ⊆ heap'.roots
  same : ∀ r ∈ heap.roots, (∀ a, this = some a → ¬ heap.InTree r a) → Same heap heap' r

theorem spares_of_step (hstep : Step heap heap' a) : Spares heap heap' (some a) where
  tidy := hstep.tidy
  roots := hstep.roots ▸ List.Subset.refl _
  same := fun r hroot hout => hstep.same r hroot (hout a rfl)

theorem spares_of_newRoot {xml : Xml} {before : XmlHeap} (htidy : heap.Tidy ∅)
    (htidy' : Tidy (before.newRoot xml) ∅) (htop : heap.top ≤ before.top) (hroots : before.roots = heap.roots)
    (hnodes : before.nodes = heap.nodes) (hblocks : ∀ q < heap.top, before.blocks q = heap.blocks q) :
    Spares heap (before.newRoot xml) none where
  tidy := htidy'
  roots := hroots ▸ List.subset_cons_self _ _
  same := by
    intro r hroot _
    refine htidy.same_of_newRoot (fun b hb => ?_) hblocks hroot
    exact (nodes_newNode_of_ne (hb.trans_le htop).ne).trans (congrFun hnodes b)

theorem live_iff : op.live heap = true ↔
    (∀ a, op.this? = some a → (heap.nodes a).isSome) ∧ ∀ a, op.other? = some a → (heap.nodes a).isSome := by
  rw [live, Bool.and_eq_true, Option.all_eq_true, Option.all_eq_true]

theorem exists_run (htidy : heap.Tidy ∅) (hlive : op.live heap = true) (hkeeps : ¬ op.Breaks heap) :
    ∃ heap', op.run heap = some heap' ∧ Spares heap heap' op.this? := by
  obtain ⟨hthis, hother⟩ := live_iff.mp hlive
  have hnode : ∀ a, op.this? = some a → ∃ xml, heap.nodes a = some xml :=
    fun a ha => Option.isSome_iff_exists.mp (hthis a ha)
  cases op with
  | construct =>
      exact ⟨_, rfl, spares_of_newRoot htidy htidy.construct (Nat.le_refl _) rfl rfl fun _ _ => rfl⟩
  | ofName name =>
      exact ⟨_, rfl, spares_of_newRoot htidy (htidy.ofName name) (Nat.le_succ _) rfl rfl
        fun q hq => blocks_newBlock_of_ne hq.ne⟩
  | copyConstruct other =>
      have hnull : heap.nodes other = some null := not_not.mp hkeeps
      refine ⟨heap.newRoot null, ?_,
        spares_of_newRoot htidy htidy.construct (Nat.le_refl _) rfl rfl fun _ _ => rfl⟩
      rw [run, XmlHeap.copyConstruct, hnull]
      rfl
  | setName this name =>
      obtain ⟨xml, hxml⟩ := hnode this rfl
      obtain ⟨heap', hrun, hstep⟩ := htidy.exists_setName hxml name
      exact ⟨heap', hrun, spares_of_step hstep⟩
  | setText this text =>
      obtain ⟨xml, hxml⟩ := hnode this rfl
      obtain ⟨heap', hrun, hstep⟩ := htidy.exists_setText hxml text
      exact ⟨heap', hrun, spares_of_step hstep⟩
  | setAttr this key val =>
      obtain ⟨xml, hxml⟩ := hnode this rfl
      obtain ⟨heap', hrun, hstep⟩ := htidy.exists_setAttr hxml key val
      exact ⟨heap', hrun, spares_of_step hstep⟩
  | index this i =>
      obtain ⟨xml, hxml⟩ := hnode this rfl
      obtain ⟨heap', outcome, hrun, hstep⟩ := htidy.exists_index hxml (not_le.mp hkeeps)
      exact ⟨heap', by rw [run, hrun, Option.map_some], spares_of_step hstep⟩
  | indexName this name =>
      obtain ⟨xml, hxml⟩ := hnode this rfl
      obtain ⟨heap', addr, hrun, hstep⟩ := htidy.exists_indexName hxml name
      exact ⟨heap', by rw [run, hrun, Option.map_some], spares_of_step hstep⟩
  | append this child =>
      obtain ⟨xml, hxml⟩ := hnode this rfl
      obtain ⟨hne, hnull⟩ := not_or.mp hkeeps
      obtain ⟨heap', hrun, hstep⟩ := htidy.exists_append hxml (not_not.mp hnull) hne
      exact ⟨heap', hrun, spares_of_step hstep⟩
  | assign this other =>
      have hnull : other = this ∨ heap.nodes other = some null ∧ ¬ heap.InTree this other := by
        rw [Breaks, not_and_or, not_not, not_or, not_not] at hkeeps
        exact hkeeps
      obtain ⟨heap', hrun, hstep⟩ := htidy.exists_assign (hthis this rfl) hnull (Nat.le_refl _)
      exact ⟨heap', hrun, spares_of_step hstep⟩
  | remove this i =>
      obtain ⟨xml, hxml⟩ := hnode this rfl
      obtain ⟨heap', outcome, hrun, hstep⟩ := htidy.exists_remove hxml i (Nat.le_refl _)
      exact ⟨heap', by rw [run, hrun, Option.map_some], spares_of_step hstep⟩
  | removeName this name =>
      obtain ⟨xml, hxml⟩ := hnode this rfl
      obtain ⟨heap', hrun, hstep⟩ := htidy.exists_removeName hxml name (Nat.le_refl _)
      exact ⟨heap', hrun, spares_of_step hstep⟩
  | clear this =>
      obtain ⟨heap', hrun, hemptied⟩ := htidy.exists_clear (hthis this rfl) (Nat.le_add_left _ this)
      exact ⟨heap', hrun, spares_of_step (hemptied.step htidy)⟩

theorem Spares.independent (hspares : Spares heap heap' op.this?) (htidy : heap.Tidy ∅)
    (hrun : op.run heap = some heap') : op.Independent heap := by
  refine ⟨heap', hrun, fun r hroot hout => ⟨hspares.roots hroot, ?_⟩⟩
  obtain ⟨xml, hxml⟩ := Option.isSome_iff_exists.mp (htidy.owned.isScoped.roots_live r hroot)
  have hsame := hspares.same r hroot hout
  exact ⟨xml, hxml, (hsame.nodes r .refl).trans hxml, fun fuel => str_of_same hsame .refl hxml⟩

/-- A call that breaks something leaves a payload with two owners, or has no outcome. -/
theorem not_soleOwners_of_breaks (htidy : heap.Tidy ∅) (hlive : op.live heap = true) (hbreaks : op.Breaks heap)
    (hrun : op.run heap = some heap') : ¬ heap'.SoleOwners := by
  obtain ⟨hthis, hother⟩ := live_iff.mp hlive
  cases op with
  | copyConstruct other =>
      obtain ⟨source, hsource⟩ := Option.isSome_iff_exists.mp (hother other rfl)
      have hne : source ≠ null := fun heq => hbreaks (heq ▸ hsource)
      rw [run, XmlHeap.copyConstruct, hsource, Option.bind_eq_bind, Option.bind_some, Option.some.injEq] at hrun
      subst hrun
      obtain ⟨q, hpoints, hpoints', hlt⟩ := exists_shared htidy.owned.isScoped hsource hne
      exact fun howners => hlt (howners.unique hpoints hpoints')
  | append this child =>
      obtain ⟨xml, hxml⟩ := Option.isSome_iff_exists.mp (hthis this rfl)
      obtain ⟨source, hsource⟩ := Option.isSome_iff_exists.mp (hother child rfl)
      exact htidy.not_soleOwners_append hxml hsource
        (hbreaks.imp_right fun hne heq => hne (heq ▸ hsource)) hrun
  | assign this other =>
      obtain ⟨source, hsource⟩ := Option.isSome_iff_exists.mp (hother other rfl)
      exact htidy.not_soleOwners_assign (hthis this rfl) hsource hbreaks.1
        (hbreaks.2.imp_left fun hne heq => hne (heq ▸ hsource)) (Nat.le_refl _) hrun
  | index this i =>
      obtain ⟨xml, hxml⟩ := Option.isSome_iff_exists.mp (hthis this rfl)
      rw [run, htidy.index_eq_none hxml hbreaks] at hrun
      cases hrun
  | construct | ofName _ | setName _ _ | setText _ _ | setAttr _ _ _ | indexName _ _ | remove _ _
  | removeName _ _ | clear _ => exact hbreaks.elim

theorem step_system {s s' : Option XmlHeap} (hstep : system.step s op = some s') :
    ∃ heap, s = some heap ∧ op.live heap = true ∧ op.run heap = s' := by
  obtain ⟨heap, hs, hrun⟩ := Option.bind_eq_some_iff.mp hstep
  obtain ⟨hlive, heq⟩ := Option.ite_none_right_eq_some.mp hrun
  exact ⟨heap, hs, hlive, Option.some.inj heq⟩

/-- In a run of any constructors and calls, each payload has one owner and each call leaves the
variables that do not hold its node, exactly if no call breaks something. -/
theorem trees_independent_iff {visited : List (Option XmlHeap × XmlOp)} {s : Option XmlHeap}
    (hrun : system.Run visited s) :
    ((∀ before ∈ visited, ∃ heap, before.1 = some heap ∧ heap.SoleOwners ∧ before.2.Independent heap) ∧
      ∃ heap, s = some heap ∧ heap.SoleOwners) ↔
    ∀ taken ∈ visited, ∀ heap, taken.1 = some heap → ¬ taken.2.Breaks heap := by
  have hinitial : ∀ s, system.initial s → ∃ heap : XmlHeap, s = some heap ∧ heap.Tidy ∅ :=
    fun _ hs => ⟨_, hs, tidy_empty⟩
  have hgood : ∀ s op s', (∃ heap : XmlHeap, s = some heap ∧ heap.Tidy ∅) → system.step s op = some s' →
      ¬ (∃ heap, s = some heap ∧ op.Breaks heap) → ∃ heap : XmlHeap, s' = some heap ∧ heap.Tidy ∅ := by
    rintro _ op s' ⟨heap, rfl, htidy⟩ hstep hkeeps
    obtain ⟨_, hheap, hlive, rfl⟩ := step_system hstep
    obtain rfl := Option.some.inj hheap
    obtain ⟨heap', hheap', hspares⟩ := exists_run htidy hlive fun hbreaks => hkeeps ⟨heap, rfl, hbreaks⟩
    exact ⟨heap', hheap', hspares.tidy⟩
  have hiff := hrun.forall_iff (P := fun s => ∃ heap, s = some heap ∧ heap.SoleOwners)
    (fun s ⟨heap, hs, htidy⟩ => ⟨heap, hs, htidy.owned.soleOwners⟩) hinitial hgood (by
      rintro _ op s' ⟨heap, rfl, htidy⟩ hstep ⟨heap₁, hheap₁, hbreaks⟩ ⟨heap', rfl, howners⟩
      obtain ⟨heap₂, hheap₂, hlive, hheap'⟩ := step_system hstep
      obtain rfl := Option.some.inj hheap₁
      obtain rfl := Option.some.inj hheap₂
      exact not_soleOwners_of_breaks htidy hlive hbreaks hheap' howners)
  constructor
  · rintro ⟨hbefore, hlast⟩ taken hmem heap hheap hbreaks
    refine hiff.mp ⟨fun before hmem => ?_, hlast⟩ taken hmem ⟨heap, hheap, hbreaks⟩
    obtain ⟨heap, hheap, howners, -⟩ := hbefore before hmem
    exact ⟨heap, hheap, howners⟩
  · intro hkeeps
    have hnone : ∀ taken ∈ visited, ¬ ∃ heap, taken.1 = some heap ∧ taken.2.Breaks heap :=
      fun taken hmem ⟨heap, hheap, hbreaks⟩ => hkeeps taken hmem heap hheap hbreaks
    obtain ⟨htidies, heap, hs, htidy⟩ := hrun.forall_of_forall_not hinitial hgood hnone
    refine ⟨fun taken hmem => ?_, heap, hs, htidy.owned.soleOwners⟩
    obtain ⟨heap, hheap, htidy⟩ := htidies taken hmem
    obtain ⟨s', hstep⟩ := hrun.enabled taken hmem
    obtain ⟨_, hheap', hlive, -⟩ := step_system hstep
    obtain rfl := Option.some.inj (hheap.symm.trans hheap')
    obtain ⟨heap', hrun', hspares⟩ := exists_run htidy hlive (hkeeps taken hmem heap hheap)
    exact ⟨heap, hheap, htidy.owned.soleOwners, hspares.independent htidy hrun'⟩

/-- `XML p("p"), c; p.append(c); c.setName("c"); p[0].setText("t"); p.remove(0);`. -/
theorem trees_independent_empty_child : ∃ (visited : List (Option XmlHeap × XmlOp)) (s : Option XmlHeap),
    system.Run visited s ∧ visited.map Prod.snd = [.ofName ['p'], .construct, .append 1 2, .setName 2 ['c'],
      .index 1 0, .setText 4 ['t'], .remove 1 0] ∧
    (∀ before ∈ visited, ∃ heap, before.1 = some heap ∧ heap.SoleOwners ∧ before.2.Independent heap) ∧
    ∃ heap, s = some heap ∧ heap.SoleOwners := by
  have hstart : system.Run [] (some NodeHeap.empty) := .initial rfl
  have hrun := ((((((hstart.step (a := .ofName ['p']) rfl).step (a := .construct) rfl).step (a := .append 1 2)
    rfl).step (a := .setName 2 ['c']) rfl).step (a := .index 1 0) rfl).step (a := .setText 4 ['t']) rfl).step
    (a := .remove 1 0) rfl
  refine ⟨_, _, hrun, rfl, (trees_independent_iff hrun).mpr fun taken hmem heap hheap => ?_⟩
  simp only [List.nil_append, List.cons_append, List.mem_cons, List.not_mem_nil, or_false] at hmem
  rcases hmem with rfl | rfl | rfl | rfl | rfl | rfl | rfl
  · exact id
  · exact id
  · obtain rfl := Option.some.inj hheap
    rintro (heq | hne)
    · cases heq
    · exact hne rfl
  · exact id
  · exact fun hle => absurd (show (intMax : ℤ) ≤ 0 from hle) (by decide)
  · exact id
  · exact id

/-- `XML p("p"), c("c"); p.append(c);`. -/
def namedChild : List XmlOp := [.ofName ['p'], .ofName ['c'], .append 1 3]

/-- The nodes of `p`, of `c` and of its copy, and what `p` prints before `c.setName("d")` and after it. -/
theorem namedChild_eq : (system.execute (some NodeHeap.empty) namedChild).bind (fun s => s.bind fun heap =>
      ((XmlOp.setName 3 ['d']).run heap).map fun heap' =>
        ([heap.nodes 1, heap.nodes 3, heap.nodes 5, heap'.nodes 1],
          [heap, heap'].map fun heap => (heap.str 2 ⟨some 0, none, none, some 4⟩).run)) =
    some ([some ⟨some 0, none, none, some 4⟩, some ⟨some 2, none, none, none⟩, some ⟨some 2, none, none, none⟩,
      some ⟨some 0, none, none, some 4⟩], [some (.ok "<p><c></c></p>".toList), none]) := by
  decide +kernel

/-- The parent and its child share a name with the element that was appended, and `setName` on
that one takes it away. -/
theorem named_child_shared : ∃ (visited : List (Option XmlHeap × XmlOp)) (heap heap' : XmlHeap) (xml : Xml),
    system.Run visited (some heap) ∧ (XmlOp.setName 3 ['d']).run heap = some heap' ∧
    heap.nodes 1 = some xml ∧ heap'.nodes 1 = some xml ∧ ¬ heap.SoleOwners ∧
    heap.str 2 xml = pure "<p><c></c></p>".toList ∧ heap'.str 2 xml = ExceptT.mk none := by
  obtain ⟨s, hexecute, hs⟩ := Option.bind_eq_some_iff.mp namedChild_eq
  obtain ⟨heap, rfl, hheap⟩ := Option.bind_eq_some_iff.mp hs
  obtain ⟨heap', hrun, heq⟩ := Option.map_eq_some_iff.mp hheap
  simp only [List.map_cons, List.map_nil, Prod.mk.injEq, List.cons.injEq, and_true] at heq
  obtain ⟨⟨hparent, hchild, hcopy, hparent'⟩, hbefore, hafter⟩ := heq
  have hstart : system.Run [] (some NodeHeap.empty) := .initial rfl
  obtain ⟨visited, hvisited⟩ := hstart.execute hexecute
  refine ⟨visited, heap, heap', _, hvisited, hrun, hparent, hparent', fun howners => ?_, hbefore, hafter⟩
  have hname : 2 ∈ pointers (⟨some 2, none, none, none⟩ : Xml) := List.mem_cons_self
  have hsame : 3 = 5 := howners.unique ⟨_, hchild, hname⟩ ⟨_, hcopy, hname⟩
  exact absurd hsame (by decide)

end XmlOp

end CppProjects
