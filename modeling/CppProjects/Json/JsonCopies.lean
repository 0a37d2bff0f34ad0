import CppProjects.Json.JsonPrints
import CppProjects.Json.JsonRuns

/-!
# The copies a step makes

Every call of the copy constructor, with the address the copy is constructed at and
the original.  The vector and the map call it for their elements.
-/

namespace CppProjects

variable {δ : Type}

/-- Two tags that stand for one member are the same. -/
theorem JsonType.member_injective {first second : JsonType} {m : Member} (hfirst : first.member = some m)
    (hsecond : second.member = some m) : first = second := by
  cases m <;> cases first <;> cases hfirst <;> cases second <;> cases hsecond <;> rfl

theorem JsonType.not_boxed_of_member {type : JsonType} (hmember : type.member = none) : ¬ type.Boxed := by
  rintro (rfl | rfl | rfl) <;> cases hmember

/-- The member that was written last is the one the tag stands for. -/
def Json.Agrees (j : Json δ) : Prop := ∀ m, j.mType.member = some m → j.mValue.member = some m

namespace JsonHeap

open NodeHeap

/-- The nodes at `addrs`, which are copied to `start` and behind it. -/
def originals (heap : JsonHeap δ) (start : ℕ) (addrs : List ℕ) : List (ℕ × Json δ) :=
  (addrs.zipIdx start).filterMap fun place => (heap.nodes place.1).map (place.2, ·)

/-- The elements of the array in `this`, if there is no room for one more. -/
def crowded (heap : JsonHeap δ) (this : ℕ) : List ℕ :=
  match (heap.nodes this).bind fun j => j.mValue.mArray?.bind heap.elements? with
  | some (elements, capacity) => if elements.length < capacity then [] else elements
  | none => []

def pushCopies (heap : JsonHeap δ) (this : ℕ) (value : Json δ) : List (ℕ × Json δ) :=
  (heap.top, value) :: heap.originals (heap.top + 1) (heap.crowded this)

def copies (heap : JsonHeap δ) : Action δ → List (ℕ × Json δ)
  | .copyConstruct other => (heap.nodes other).elim [] fun source => [(heap.top, source)]
  | .assignJson this other =>
      if this = other then []
      else (heap.prepared this other).elim [] fun ready =>
        ready.originals ready.top (ready.elementsOf other)
  | .push this other => (heap.nodes other).elim [] (heap.pushCopies this)
  | .pushNull this => heap.pushCopies this .null
  | _ => []

variable {heap heap' : JsonHeap δ} {storage : Storage} {this other p start addr : ℕ}
  {made : ℕ × Json δ} {j source : Json δ} {addrs : List ℕ}

theorem mem_originals : made ∈ heap.originals start addrs ↔
    ∃ i addr, addrs[i]? = some addr ∧ heap.nodes addr = some made.2 ∧ made.1 = start + i := by
  rw [originals, List.mem_filterMap]
  constructor
  · rintro ⟨⟨addr, place⟩, hmem, hsome⟩
    obtain ⟨source, hsource, rfl⟩ := Option.map_eq_some_iff.mp hsome
    obtain ⟨hle, hget⟩ := List.mk_mem_zipIdx_iff_le_and_getElem?_sub.mp hmem
    exact ⟨place - start, addr, hget, hsource, (Nat.add_sub_cancel' hle).symm⟩
  · rintro ⟨i, addr, hget, hsource, hplace⟩
    refine ⟨(addr, made.1), ?_, Option.map_eq_some_iff.mpr ⟨made.2, hsource, rfl⟩⟩
    rw [hplace]
    exact List.mk_add_mem_zipIdx_iff_getElem?.mpr hget

theorem originals_newNode {node : Json δ} (hlt : ∀ addr ∈ addrs, addr < heap.top) :
    originals (heap.newNode node) start addrs = heap.originals start addrs := by
  apply List.filterMap_congr
  intro place hmem
  have haddr : place.1 ∈ addrs := List.fst_mem_of_mem_zipIdx hmem
  rw [nodes_newNode_of_ne (hlt _ haddr).ne]

section CopiesOf

variable {copies : List (Json δ)} {copy : Json δ} {i : ℕ}

/-- Each original is copied. -/
theorem CopiesOf.exists_copy (hcopies : CopiesOf storage heap start addrs copies)
    (hmem : made ∈ heap.originals start addrs) : ∃ i copy, made.1 = start + i ∧
      copies[i]? = some copy ∧ made.2.copied (storage.stale made.1) = some copy := by
  obtain ⟨i, addr, haddr, hsource, hplace⟩ := mem_originals.mp hmem
  have hlt : i < copies.length := hcopies.1 ▸ (List.getElem?_eq_some_iff.mp haddr).1
  have hcopy := List.getElem?_eq_getElem hlt
  obtain ⟨source, hsource', hcopied⟩ := hcopies.2 i addr copies[i] haddr hcopy
  obtain rfl := Option.some.inj (hsource.symm.trans hsource')
  exact ⟨i, copies[i], hplace, hcopy, hplace ▸ hcopied⟩

/-- Each copy has an original. -/
theorem CopiesOf.exists_original (hcopies : CopiesOf storage heap start addrs copies)
    (hcopy : copies[i]? = some copy) : ∃ source, (start + i, source) ∈ heap.originals start addrs ∧
      source.copied (storage.stale (start + i)) = some copy := by
  have hlt : i < addrs.length := hcopies.1 ▸ (List.getElem?_eq_some_iff.mp hcopy).1
  have haddr := List.getElem?_eq_getElem hlt
  obtain ⟨source, hsource, hcopied⟩ := hcopies.2 i addrs[i] copy haddr hcopy
  exact ⟨source, mem_originals.mpr ⟨i, _, haddr, hsource, rfl⟩, hcopied⟩

end CopiesOf

/-! ## The originals of `push_back` and of `operator=` -/

theorem crowded_eq {capacity : ℕ} (hnode : heap.nodes this = some j) (hvalue : j.mValue = .mArray p)
    (hblock : heap.blocks p = some (.array addrs capacity)) :
    heap.crowded this = if addrs.length < capacity then [] else addrs := by
  simp [crowded, hnode, hvalue, Payload.mArray?, elements?, hblock, JsonBlock.elements?]

theorem elementsOf_of_replica {value : Json δ} {q : ℕ} {block block' : JsonBlock} {copies : List ℕ}
    (hnode : heap.nodes addr = some source) (hblock : heap.blocks p = some block)
    (hreplica : Replica source p block copies block' q value) :
    heap.elementsOf addr = children block := by
  rw [elementsOf_eq hnode]
  cases hreplica <;> exact congrArg (fun block => block.elim [] JsonBlock.children) hblock

theorem elementsOf_of_not_boxed (hnode : heap.nodes addr = some source) (hboxed : ¬ source.mType.Boxed) :
    heap.elementsOf addr = [] := by
  obtain ⟨type, payload⟩ := source
  rw [elementsOf_eq hnode]
  cases type
  case jsonArray => exact absurd (.inr (.inl rfl)) hboxed
  case jsonObject => exact absurd (.inr (.inr rfl)) hboxed
  all_goals rfl

/-! ## What becomes of the nodes -/

/-- The copies in `made` are there afterwards; the other nodes are old ones or agree. -/
structure Made (storage : Storage) (made : List (ℕ × Json δ)) (heap heap' : JsonHeap δ) : Prop where
  copied : ∀ entry ∈ made, ∃ copy, entry.2.copied (storage.stale entry.1) = some copy ∧
    heap'.nodes entry.1 = some copy
  origin : ∀ addr node, heap'.nodes addr = some node → heap.nodes addr = some node ∨ node.Agrees ∨
    ∃ entry ∈ made, entry.1 = addr ∧ entry.2.copied (storage.stale addr) = some node

section Made

variable {middle : JsonHeap δ} {node : Json δ} {block : JsonBlock}

theorem Made.of_origin (horigin : ∀ addr node, heap'.nodes addr = some node →
    heap.nodes addr = some node ∨ node.Agrees) : Made storage [] heap heap' where
  copied := fun _ hmem => absurd hmem List.not_mem_nil
  origin := fun addr node hnode => (horigin addr node hnode).imp_right .inl

theorem Made.refl : Made storage [] heap heap := .of_origin fun _ _ hnode => .inl hnode

theorem Made.origin_nil (hmade : Made storage [] heap heap') (hnode : heap'.nodes addr = some node) :
    heap.nodes addr = some node ∨ node.Agrees := by
  rcases hmade.origin addr node hnode with hold | hagrees | ⟨entry, hmem, -⟩
  · exact .inl hold
  · exact .inr hagrees
  · cases hmem

theorem Made.setNode (hmade : Made storage [] heap middle) (hagrees : node.Agrees) :
    Made storage [] heap (middle.setNode this node) := by
  apply Made.of_origin
  intro addr other hother
  by_cases heq : addr = this
  · rw [heq, nodes_setNode_self, Option.some.injEq] at hother
    exact .inr (hother ▸ hagrees)
  · exact hmade.origin_nil ((nodes_setNode_of_ne heq).symm.trans hother)

theorem Made.newRoot (hmade : Made storage [] heap middle) (hagrees : node.Agrees) :
    Made storage [] heap (middle.newRoot node) := by
  apply Made.of_origin
  intro addr other hother
  by_cases heq : addr = middle.top
  · have htop : (middle.newRoot node).nodes middle.top = some node := nodes_newNode_top
    rw [heq, htop, Option.some.injEq] at hother
    exact .inr (hother ▸ hagrees)
  · exact hmade.origin_nil ((nodes_newNode_of_ne heq).symm.trans hother)

theorem Made.newBlock : Made storage [] heap (heap.newBlock block) := .of_origin fun _ _ hnode => .inl hnode

end Made

theorem agrees_null {payload : Payload δ} : (⟨.jsonNull, payload⟩ : Json δ).Agrees := by
  intro m hm
  cases hm

theorem Made.clear (hclear : heap.clear this = some heap') : Made storage [] heap heap' := by
  obtain ⟨j, -, ⟨p, block, -, -, -, -, -, rfl⟩ | ⟨-, rfl⟩⟩ := clear_cases hclear
  · have hdrop : Made storage [] heap (heap.drop p block) :=
      .of_origin fun _ _ hnode => .inl (nodes_of_discard hnode).2
    exact hdrop.setNode agrees_null
  · exact Made.refl.setNode agrees_null

theorem made_ofScalar (value : Scalar δ) : Made storage [] heap (heap.ofScalar value) := by
  cases value with
  | string text => exact Made.newBlock.newRoot fun _ hm => hm
  | _ => exact Made.refl.newRoot fun _ hm => hm

theorem made_ofType [Zero δ] (type : JsonType) : Made storage [] heap (heap.ofType type) := by
  cases type with
  | jsonString | jsonArray | jsonObject => exact Made.newBlock.newRoot fun _ hm => hm
  | jsonNull => exact Made.refl.newRoot agrees_null
  | stray => exact Made.refl.newRoot fun _ hm => by cases hm
  | _ => exact Made.refl.newRoot fun _ hm => hm

theorem Made.then_newBlock {middle : JsonHeap δ} {block : JsonBlock} (hmade : Made storage [] heap middle) :
    Made storage [] heap (middle.newBlock block) :=
  .of_origin fun _ _ hnode => hmade.origin_nil hnode

theorem made_assign {value : Scalar δ} (hassign : heap.assign this value = some heap') :
    Made storage [] heap heap' := by
  have hvalue : ∀ {value : Json δ}, value.Agrees → heap.assignValue this value = some heap' →
      Made storage [] heap heap' := by
    intro value hagrees hassign
    obtain ⟨cleared, hclear, -, rfl⟩ := assignValue_eq_some hassign
    obtain ⟨j, -, ⟨-, rfl⟩ | ⟨-, hcleared⟩⟩ := clearUnless_cases hclear
    · exact Made.refl.setNode hagrees
    · exact (Made.clear hcleared).setNode hagrees
  cases value with
  | bool value =>
      have hagrees : (⟨.jsonBool, .mBool value⟩ : Json δ).Agrees := fun _ hm => hm
      exact hvalue hagrees hassign
  | int value =>
      have hagrees : (⟨.jsonInt, .mInt value⟩ : Json δ).Agrees := fun _ hm => hm
      exact hvalue hagrees hassign
  | double value =>
      have hagrees : (⟨.jsonDouble, .mDouble value⟩ : Json δ).Agrees := fun _ hm => hm
      exact hvalue hagrees hassign
  | string text =>
      obtain ⟨j, -, ⟨p, old, -, -, -, rfl⟩ | ⟨cleared, -, hclear, -, rfl⟩⟩ := assign_string_cases hassign
      · exact .of_origin fun _ _ hnode => .inl hnode
      · exact (Made.clear hclear).then_newBlock.setNode fun _ hm => hm

theorem made_copyConstruct (hsource : heap.nodes other = some source)
    (hcopy : heap.copyConstruct storage other = some heap') :
    Made storage [(heap.top, source)] heap heap' := by
  obtain ⟨source', hsource', hrest⟩ := Option.bind_eq_some_iff.mp hcopy
  obtain rfl := Option.some.inj (hsource.symm.trans hsource')
  obtain ⟨copy, hcopied, hroot⟩ := Option.bind_eq_some_iff.mp hrest
  obtain rfl := Option.some.inj hroot
  constructor
  · intro entry hmem
    obtain rfl := List.mem_singleton.mp hmem
    exact ⟨copy, hcopied, nodes_newNode_top⟩
  · intro addr node hnode
    rcases eq_or_ne addr heap.top with rfl | hne
    · have htop : (heap.newRoot copy).nodes heap.top = some copy := nodes_newNode_top
      rw [htop, Option.some.injEq] at hnode
      exact .inr (.inr ⟨(heap.top, source), List.mem_singleton_self _, rfl, hnode ▸ hcopied⟩)
    · exact .inl ((nodes_newNode_of_ne hne).symm.trans hnode)

/-- New nodes are copies of their originals. -/
theorem CopiesOf.made_newNodes {copies : List (Json δ)}
    (hcopies : CopiesOf storage heap heap.top addrs copies) :
    Made storage (heap.originals heap.top addrs) heap (heap.newNodes copies) where
  copied := by
    intro entry hmem
    obtain ⟨i, copy, hplace, hcopy, hcopied⟩ := hcopies.exists_copy hmem
    refine ⟨copy, hcopied, ?_⟩
    rw [hplace, nodes_newNodes_add (List.getElem?_eq_some_iff.mp hcopy).1]
    exact hcopy
  origin := by
    intro addr node hnode
    rcases nodes_of_newNodes hnode with ⟨i, rfl, hcopy⟩ | ⟨-, hold⟩
    · obtain ⟨source, hmem, hcopied⟩ := hcopies.exists_original hcopy
      exact .inr (.inr ⟨_, hmem, rfl, hcopied⟩)
    · exact .inl hold

theorem made_pushBack (hscoped : heap.Scoped) {value : Json δ}
    (hpush : heap.pushBack storage this value = some heap') :
    Made storage (heap.pushCopies this value) heap heap' := by
  obtain ⟨j, p, elements, capacity, copy, hnode, hvalue, hblock, hcopied, hcases⟩ := pushBack_cases hpush
  have helements : ∀ addr ∈ elements, addr < heap.top := Scoped.children_lt hscoped hblock
  have hnew : Made storage [(heap.top, value)] heap (heap.newNode copy) := by
    constructor
    · intro entry hmem
      obtain rfl := List.mem_singleton.mp hmem
      exact ⟨copy, hcopied, nodes_newNode_top⟩
    · intro addr node hnode
      rcases eq_or_ne addr heap.top with rfl | hne
      · rw [nodes_newNode_top, Option.some.injEq] at hnode
        exact .inr (.inr ⟨(heap.top, value), List.mem_singleton_self _, rfl, hnode ▸ hcopied⟩)
      · exact .inl ((nodes_newNode_of_ne hne).symm.trans hnode)
  rw [pushCopies, crowded_eq hnode hvalue hblock]
  rcases hcases with ⟨hroom, rfl⟩ | ⟨moved, capacity', hfull, hmoved, rfl⟩
  · rw [if_pos hroom]
    exact ⟨hnew.copied, hnew.origin⟩
  · rw [if_neg (Nat.not_lt.mpr hfull)]
    obtain ⟨copies, hcopies, rfl⟩ := copyAll_eq_some hmoved
      fun addr hmem => Nat.lt_succ_of_lt (helements addr hmem)
    have hrest := hcopies.made_newNodes
    rw [originals_newNode helements] at hrest
    have hkept : ∀ {addr}, heap.top ≤ addr →
        (((heap.newNode copy).newNodes copies).discard elements).nodes addr =
          ((heap.newNode copy).newNodes copies).nodes addr := fun hle =>
      nodes_discard_of_notMem fun hmem => Nat.not_le.mpr (helements _ hmem) hle
    constructor
    · intro entry hmem
      rcases List.mem_cons.mp hmem with rfl | hmem
      · refine ⟨copy, hcopied, (hkept (Nat.le_refl _)).trans ?_⟩
        rw [nodes_newNodes_of_lt (Nat.lt_succ_self _), nodes_newNode_top]
      · obtain ⟨copy', hcopied', hnode'⟩ := hrest.copied entry hmem
        obtain ⟨i, -, -, -, hplace⟩ := mem_originals.mp hmem
        refine ⟨copy', hcopied', (hkept ?_).trans hnode'⟩
        rw [hplace, Nat.add_assoc]
        exact Nat.le_add_right _ _
    · intro addr node hnode
      rcases hrest.origin addr node (nodes_of_discard hnode).2 with hold | hagrees | ⟨entry, hmem, hentry⟩
      · rcases hnew.origin addr node hold with hold | hagrees | ⟨entry, hmem, hentry⟩
        · exact .inl hold
        · exact .inr (.inl hagrees)
        · obtain rfl := List.mem_singleton.mp hmem
          exact .inr (.inr ⟨_, List.mem_cons_self, hentry⟩)
      · exact .inr (.inl hagrees)
      · exact .inr (.inr ⟨entry, List.mem_cons_of_mem _ hmem, hentry⟩)

theorem made_entry {key : List Char} (hentry : heap.entry this key = some (heap', addr)) :
    Made storage [] heap heap' := by
  obtain ⟨j, p, entries, -, -, -, ⟨-, rfl⟩ | ⟨-, -, rfl⟩⟩ := entry_cases hentry
  · exact Made.refl
  · have hnull : Made storage [] heap (heap.newRoot .null) := Made.refl.newRoot agrees_null
    exact .of_origin fun _ _ hnode => hnull.origin_nil hnode

theorem agrees_replica {value : Json δ} {q : ℕ} {block block' : JsonBlock} {copies : List ℕ}
    (hreplica : Replica source p block copies block' q value) : value.Agrees := by
  cases hreplica <;> exact fun _ hm => hm

theorem made_assignJson (hscoped : heap.Scoped)
    (hassign : heap.assignJson storage this other = some heap') :
    Made storage (heap.copies (.assignJson this other)) heap heap' := by
  rcases assignJson_cases hassign with
    ⟨rfl, rfl⟩ | ⟨ready, source, hne, hprepared, hsource, hcases⟩
  · rw [copies, if_pos rfl]
    exact Made.refl
  have hready := Scoped.prepared hscoped hprepared
  rw [copies, if_neg hne, hprepared, Option.elim_some]
  obtain ⟨cleared, old, source', hclear, hold, hsource', rfl⟩ := prepared_eq_some hprepared
  have hcleared : Made storage [] heap cleared := Made.clear hclear
  have hsame : source' = source := by
    rw [nodes_setNode_of_ne (Ne.symm hne)] at hsource
    exact Option.some.inj (hsource'.symm.trans hsource)
  rcases hcases with ⟨hmember, rfl⟩ | ⟨hboxed, hvalue, rfl⟩ | ⟨p, text, rfl, -, rfl⟩ |
    ⟨p, block, block', copied, value, hblock, hcopied, hreplica, rfl⟩
  · rw [elementsOf_of_not_boxed hsource (JsonType.not_boxed_of_member hmember)]
    apply hcleared.setNode
    intro m hm
    rw [hsame, hmember] at hm
    cases hm
  · rw [elementsOf_of_not_boxed hsource hboxed, setNode_setNode]
    exact hcleared.setNode fun m hm => hvalue.trans hm
  · have hnone : elementsOf (cleared.setNode this ⟨source'.mType, old.mValue⟩) other = [] := by
      rw [elementsOf_eq hsource]
      rfl
    rw [hnone, newBlock_setNode, setNode_setNode]
    exact hcleared.then_newBlock.setNode fun m hm => hm
  · obtain ⟨copies, hcopies, rfl⟩ := copyAll_eq_some hcopied (Scoped.children_lt hready hblock)
    rw [elementsOf_of_replica hsource hblock hreplica]
    have hnew := hcopies.made_newNodes
    have hlt : this < cleared.top := hready.nodes_lt nodes_setNode_self
    constructor
    · intro entry hmem
      obtain ⟨copy, hcopied, hnode⟩ := hnew.copied entry hmem
      obtain ⟨i, -, -, -, hplace⟩ := mem_originals.mp hmem
      have hfar : entry.1 ≠ this := by
        rw [hplace]
        exact (Nat.lt_of_lt_of_le hlt (Nat.le_add_right _ _)).ne'
      exact ⟨copy, hcopied, (nodes_setNode_of_ne hfar).trans hnode⟩
    · intro addr node hnode
      rcases eq_or_ne addr this with rfl | hfar
      · rw [nodes_setNode_self, Option.some.injEq] at hnode
        exact .inr (.inl (hnode ▸ agrees_replica hreplica))
      · rcases hnew.origin addr node ((nodes_setNode_of_ne hfar).symm.trans hnode) with hthere | hmade
        · exact (hcleared.origin_nil ((nodes_setNode_of_ne hfar).symm.trans hthere)).imp_right .inl
        · exact .inr hmade

/-- What a step makes of the nodes. -/
theorem made_step [Zero δ] {a : Action δ} (hscoped : heap.Scoped)
    (hstep : step storage heap a = some heap') : Made storage (heap.copies a) heap heap' := by
  cases a with
  | construct type =>
      obtain rfl := Option.some.inj hstep
      exact made_ofType type
  | constructFrom value =>
      obtain rfl := Option.some.inj hstep
      exact made_ofScalar value
  | copyConstruct other =>
      obtain ⟨source, hsource, -⟩ := Option.bind_eq_some_iff.mp hstep
      rw [copies, hsource, Option.elim_some]
      exact made_copyConstruct hsource hstep
  | assign this value => exact made_assign hstep
  | assignJson this other => exact made_assignJson hscoped hstep
  | adopt this =>
      obtain ⟨j, -, ⟨-, rfl⟩ | ⟨-, rfl⟩⟩ := adopt_cases hstep
      · exact Made.refl
      · exact Made.newBlock.setNode fun _ hm => hm
  | push this other =>
      obtain ⟨value, hvalue, hpush⟩ := Option.bind_eq_some_iff.mp hstep
      rw [copies, hvalue, Option.elim_some]
      exact made_pushBack hscoped hpush
  | becomeArray this =>
      obtain ⟨j, -, ⟨-, rfl⟩ | ⟨cleared, -, hclear, rfl⟩⟩ := becomeArray_cases hstep
      · exact Made.refl
      · exact (Made.clear hclear).then_newBlock.setNode fun _ hm => hm
  | pushNull this => exact made_pushBack hscoped hstep
  | becomeObject this =>
      obtain ⟨j, -, ⟨-, rfl⟩ | ⟨cleared, -, hclear, rfl⟩⟩ := becomeObject_cases hstep
      · exact Made.refl
      · exact (Made.clear hclear).then_newBlock.setNode fun _ hm => hm
  | entry this key =>
      obtain ⟨⟨final, addr⟩, hentry, rfl⟩ := Option.map_eq_some_iff.mp hstep
      exact made_entry hentry
  | observe this observer =>
      obtain ⟨j, -, hsame⟩ := Option.bind_eq_some_iff.mp hstep
      obtain rfl := Option.some.inj hsame
      exact Made.refl

end JsonHeap

end CppProjects
