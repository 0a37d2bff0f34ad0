import CppProjects.Json.Json

/-!
# What the operations of `Json` do

One lemma for each operation says what it has found and which heap it leaves.
-/

namespace CppProjects

variable {δ : Type}

/-- The tags of values that lie in blocks. -/
def JsonType.Boxed (type : JsonType) : Prop :=
  type = .jsonString ∨ type = .jsonArray ∨ type = .jsonObject

instance (type : JsonType) : Decidable type.Boxed := inferInstanceAs (Decidable (_ ∨ _ ∨ _))

namespace Json

variable {stale : JsonType} {source copy : Json δ}

/-- A copy has the tag of its storage.  It has the member of the original's tag. -/
theorem copied_eq_some (hcopied : source.copied stale = some copy) : copy.mType = stale ∧
    ((source.mType.member = none ∧ copy.mValue = .unwritten) ∨
      ∃ m, source.mType.member = some m ∧ source.mValue.member = some m ∧
        copy.mValue = source.mValue) := by
  obtain ⟨type, payload⟩ := source
  rw [copied] at hcopied
  cases type <;> cases payload <;> cases hcopied <;>
    first
      | exact ⟨rfl, .inl ⟨rfl, rfl⟩⟩
      | exact ⟨rfl, .inr ⟨_, rfl, rfl, rfl⟩⟩

theorem pointers_copied (hcopied : source.copied stale = some copy) {p : ℕ}
    (hmem : p ∈ pointers copy) : p ∈ pointers source := by
  rcases (copied_eq_some hcopied).2 with ⟨-, hvalue⟩ | ⟨_, -, -, hvalue⟩
  · have hnil : pointers copy = [] := congrArg (fun value => value.pointer.toList) hvalue
    rw [hnil] at hmem
    cases hmem
  · have hsame : pointers copy = pointers source :=
      congrArg (fun value => value.pointer.toList) hvalue
    exact hsame ▸ hmem

end Json

namespace JsonHeap

open NodeHeap

variable {heap heap' : JsonHeap δ} {storage : Storage} {this other p : ℕ} {j : Json δ}

theorem elements?_eq_some {elements : List ℕ} {capacity : ℕ}
    (heq : heap.elements? p = some (elements, capacity)) :
    heap.blocks p = some (.array elements capacity) := by
  obtain ⟨block, hblock, hsome⟩ := Option.bind_eq_some_iff.mp heq
  cases block with
  | array => cases hsome; exact hblock
  | _ => cases hsome

theorem entries?_eq_some {entries : OrderedMap (List Char) ℕ} (heq : heap.entries? p = some entries) :
    heap.blocks p = some (.object entries) := by
  obtain ⟨block, hblock, hsome⟩ := Option.bind_eq_some_iff.mp heq
  cases block with
  | object => cases hsome; exact hblock
  | _ => cases hsome

theorem text?_eq_some {text : List Char} (heq : heap.text? p = some text) :
    heap.blocks p = some (.string text) := by
  obtain ⟨block, hblock, hsome⟩ := Option.bind_eq_some_iff.mp heq
  cases block with
  | string => cases hsome; exact hblock
  | _ => cases hsome

theorem release_eq_some (hrelease : heap.release this p = some heap') :
    ∃ block, heap.blocks p = some block ∧ ((heap.drop p block).nodes this).isSome ∧
      heap' = (heap.drop p block).setNode this .null := by
  obtain ⟨block, hblock, hwrite⟩ := Option.bind_eq_some_iff.mp hrelease
  obtain ⟨hlive, rfl⟩ := write_eq_some hwrite
  exact ⟨block, hblock, hlive, rfl⟩

/-- `clear` deletes the block the tag stands for, or only changes the tag. -/
theorem clear_cases (hclear : heap.clear this = some heap') : ∃ j, heap.nodes this = some j ∧
    ((∃ p block, j.mType.Boxed ∧ j.mValue.member = j.mType.member ∧ j.mValue.pointer = some p ∧
        heap.blocks p = some block ∧ ((heap.drop p block).nodes this).isSome ∧
        heap' = (heap.drop p block).setNode this .null) ∨
      (¬ j.mType.Boxed ∧ heap' = heap.setNode this ⟨.jsonNull, j.mValue⟩)) := by
  obtain ⟨⟨type, payload⟩, hnode, hrest⟩ := Option.bind_eq_some_iff.mp hclear
  refine ⟨_, hnode, ?_⟩
  have hplain : ∀ {type : JsonType}, ¬ type.Boxed →
      heap.write this ⟨.jsonNull, payload⟩ = some heap' →
      (∃ p block, type.Boxed ∧ payload.member = type.member ∧ payload.pointer = some p ∧
        heap.blocks p = some block ∧ ((heap.drop p block).nodes this).isSome ∧
        heap' = (heap.drop p block).setNode this .null) ∨
      (¬ type.Boxed ∧ heap' = heap.setNode this ⟨.jsonNull, payload⟩) :=
    fun hunboxed hwrite => .inr ⟨hunboxed, (write_eq_some hwrite).2⟩
  cases type with
  | jsonString =>
      obtain ⟨p, hp, hrelease⟩ := Option.bind_eq_some_iff.mp hrest
      obtain ⟨block, hblock, hlive, rfl⟩ := release_eq_some hrelease
      cases payload <;> cases hp
      exact .inl ⟨p, block, .inl rfl, rfl, rfl, hblock, hlive, rfl⟩
  | jsonArray =>
      obtain ⟨p, hp, hrelease⟩ := Option.bind_eq_some_iff.mp hrest
      obtain ⟨block, hblock, hlive, rfl⟩ := release_eq_some hrelease
      cases payload <;> cases hp
      exact .inl ⟨p, block, .inr (.inl rfl), rfl, rfl, hblock, hlive, rfl⟩
  | jsonObject =>
      obtain ⟨p, hp, hrelease⟩ := Option.bind_eq_some_iff.mp hrest
      obtain ⟨block, hblock, hlive, rfl⟩ := release_eq_some hrelease
      cases payload <;> cases hp
      exact .inl ⟨p, block, .inr (.inr rfl), rfl, rfl, hblock, hlive, rfl⟩
  | jsonNull => exact hplain (show ¬ JsonType.jsonNull.Boxed by decide) hrest
  | jsonBool => exact hplain (show ¬ JsonType.jsonBool.Boxed by decide) hrest
  | jsonInt => exact hplain (show ¬ JsonType.jsonInt.Boxed by decide) hrest
  | jsonDouble => exact hplain (show ¬ JsonType.jsonDouble.Boxed by decide) hrest
  | stray => exact hplain (show ¬ JsonType.stray.Boxed by decide) hrest

theorem clearUnless_cases {type : JsonType} (hclear : heap.clearUnless this type = some heap') :
    ∃ j, heap.nodes this = some j ∧
      ((j.mType = type ∧ heap' = heap) ∨ (j.mType ≠ type ∧ heap.clear this = some heap')) := by
  obtain ⟨j, hnode, hrest⟩ := Option.bind_eq_some_iff.mp hclear
  refine ⟨j, hnode, ?_⟩
  split_ifs at hrest with htype
  · exact .inl ⟨htype, (Option.some.inj hrest).symm⟩
  · exact .inr ⟨htype, hrest⟩

theorem install_eq_some {block : JsonBlock} {value : ℕ → Json δ}
    (hinstall : heap.install this block value = some heap') :
    (heap.nodes this).isSome ∧ heap' = (heap.newBlock block).setNode this (value heap.top) :=
  write_eq_some hinstall

theorem assignValue_eq_some {value : Json δ} (hassign : heap.assignValue this value = some heap') :
    ∃ cleared, heap.clearUnless this value.mType = some cleared ∧ (cleared.nodes this).isSome ∧
      heap' = cleared.setNode this value := by
  obtain ⟨cleared, hclear, hwrite⟩ := Option.bind_eq_some_iff.mp hassign
  exact ⟨cleared, hclear, write_eq_some hwrite⟩

/-- A string that is there is overwritten, or there is a new one. -/
theorem assign_string_cases {text : List Char} (hassign : heap.assign this (.string text) = some heap') :
    ∃ j, heap.nodes this = some j ∧
      ((∃ p old, j.mType = .jsonString ∧ j.mValue = .mString p ∧ heap.blocks p = some (.string old) ∧
          heap' = heap.setBlock p (.string text)) ∨
        ∃ cleared, j.mType ≠ .jsonString ∧ heap.clear this = some cleared ∧
          (cleared.nodes this).isSome ∧
          heap' = (cleared.newBlock (.string text)).setNode this ⟨.jsonString, .mString cleared.top⟩) := by
  obtain ⟨⟨type, payload⟩, hnode, hrest⟩ := Option.bind_eq_some_iff.mp hassign
  refine ⟨_, hnode, ?_⟩
  split_ifs at hrest with htype
  · obtain ⟨p, hp, htext⟩ := Option.bind_eq_some_iff.mp hrest
    obtain ⟨old, hold, hset⟩ := Option.bind_eq_some_iff.mp htext
    cases payload <;> cases hp
    exact .inl ⟨p, old, htype, rfl, text?_eq_some hold, (Option.some.inj hset).symm⟩
  · obtain ⟨cleared, hclear, hinstall⟩ := Option.bind_eq_some_iff.mp hrest
    obtain ⟨hlive, rfl⟩ := install_eq_some hinstall
    exact .inr ⟨cleared, htype, hclear, hlive, rfl⟩

/-! ## Copies of several elements -/

/-- `copies` are the copies of the nodes at `addrs`, constructed at `start` and behind
it. -/
def CopiesOf (storage : Storage) (heap : JsonHeap δ) (start : ℕ) (addrs : List ℕ)
    (copies : List (Json δ)) : Prop :=
  copies.length = addrs.length ∧ ∀ i addr copy, addrs[i]? = some addr → copies[i]? = some copy →
    ∃ source, heap.nodes addr = some source ∧ source.copied (storage.stale (start + i)) = some copy

theorem copyAll_eq_some {addrs : List ℕ} (hcopy : copyAll storage addrs heap = some heap')
    (hlt : ∀ addr ∈ addrs, addr < heap.top) :
    ∃ copies, CopiesOf storage heap heap.top addrs copies ∧ heap' = heap.newNodes copies := by
  induction addrs generalizing heap with
  | nil => exact ⟨[], ⟨rfl, fun i addr copy haddr => nomatch haddr⟩, (Option.some.inj hcopy).symm⟩
  | cons addr addrs ih =>
      obtain ⟨source, hsource, hrest⟩ := Option.bind_eq_some_iff.mp hcopy
      obtain ⟨copy, hcopied, hrest⟩ := Option.bind_eq_some_iff.mp hrest
      obtain ⟨copies, ⟨hlength, hcopies⟩, rfl⟩ := ih hrest
        fun other hmem => Nat.lt_succ_of_lt (hlt other (List.mem_cons_of_mem _ hmem))
      refine ⟨copy :: copies, ⟨congrArg Nat.succ hlength, ?_⟩, rfl⟩
      intro i addr' copy' haddr' hcopy'
      cases i with
      | zero =>
          obtain rfl := Option.some.inj haddr'
          obtain rfl := Option.some.inj hcopy'
          exact ⟨source, hsource, hcopied⟩
      | succ i =>
          obtain ⟨source', hsource', hcopied'⟩ := hcopies i addr' copy' haddr' hcopy'
          have hlt' := hlt addr' (List.mem_cons_of_mem _ (List.mem_of_getElem? haddr'))
          refine ⟨source', (nodes_newNode_of_ne hlt'.ne).symm.trans hsource', ?_⟩
          have hplace : heap.top + (i + 1) = (heap.newNode copy).top + i := by
            change heap.top + (i + 1) = heap.top + 1 + i
            omega
          rw [hplace]
          exact hcopied'

/-- What `operator=` of a `Json` makes before it copies. -/
def prepared (heap : JsonHeap δ) (this other : ℕ) : Option (JsonHeap δ) := do
  let heap ← clear heap this
  let cleared ← heap.nodes this
  let source ← heap.nodes other
  heap.write this ⟨source.mType, cleared.mValue⟩

theorem prepared_eq_some {ready : JsonHeap δ} (hprepared : heap.prepared this other = some ready) :
    ∃ cleared old source, heap.clear this = some cleared ∧ cleared.nodes this = some old ∧
      cleared.nodes other = some source ∧
      ready = cleared.setNode this ⟨source.mType, old.mValue⟩ := by
  obtain ⟨cleared, hclear, hrest⟩ := Option.bind_eq_some_iff.mp hprepared
  obtain ⟨old, hold, hrest⟩ := Option.bind_eq_some_iff.mp hrest
  obtain ⟨source, hsource, hwrite⟩ := Option.bind_eq_some_iff.mp hrest
  exact ⟨cleared, old, source, hclear, hold, hsource, (write_eq_some hwrite).2⟩

/-- A container and the one that is built for it in the block `q` out of `copies`. -/
inductive Replica : Json δ → ℕ → JsonBlock → List ℕ → JsonBlock → ℕ → Json δ → Prop
  | array {p q capacity : ℕ} {elements copies : List ℕ} :
      Replica ⟨.jsonArray, .mArray p⟩ p (.array elements capacity) copies
        (.array copies copies.length) q ⟨.jsonArray, .mArray q⟩
  | object {p q : ℕ} {entries : OrderedMap (List Char) ℕ} {copies : List ℕ} :
      Replica ⟨.jsonObject, .mObject p⟩ p (.object entries) copies
        (.object (entries.withValues copies)) q ⟨.jsonObject, .mObject q⟩

theorem copyContainer_eq_some {elements : List ℕ} {block : List ℕ → JsonBlock} {value : ℕ → Json δ}
    (hcopy : heap.copyContainer storage this elements block value = some heap') :
    ∃ copied, copyAll storage elements heap = some copied ∧ (copied.nodes this).isSome ∧
      heap' = (copied.newBlock (block (List.range' heap.top elements.length))).setNode this
        (value copied.top) := by
  obtain ⟨copied, hcopied, hinstall⟩ := Option.bind_eq_some_iff.mp hcopy
  exact ⟨copied, hcopied, install_eq_some hinstall⟩

/-- `operator=` of a `Json` takes over a value without a block, a string or the
elements of a container. -/
theorem assignJson_cases (hassign : heap.assignJson storage this other = some heap') :
    (this = other ∧ heap' = heap) ∨ ∃ ready source, this ≠ other ∧
      heap.prepared this other = some ready ∧ ready.nodes other = some source ∧
      ((source.mType.member = none ∧ heap' = ready) ∨
        (¬ source.mType.Boxed ∧ source.mValue.member = source.mType.member ∧
          heap' = ready.setNode this source) ∨
        (∃ p text, source = ⟨.jsonString, .mString p⟩ ∧ ready.blocks p = some (.string text) ∧
          heap' = (ready.newBlock (.string text)).setNode this ⟨.jsonString, .mString ready.top⟩) ∨
        ∃ p block block' copied value, ready.blocks p = some block ∧
          copyAll storage (children block) ready = some copied ∧
          Replica source p block (List.range' ready.top (children block).length) block' copied.top
            value ∧ heap' = (copied.newBlock block').setNode this value) := by
  rw [assignJson] at hassign
  split_ifs at hassign with hsame
  · exact .inl ⟨hsame, (Option.some.inj hassign).symm⟩
  · obtain ⟨cleared, hclear, hrest⟩ := Option.bind_eq_some_iff.mp hassign
    obtain ⟨old, hold, hrest⟩ := Option.bind_eq_some_iff.mp hrest
    obtain ⟨source, hsource, hrest⟩ := Option.bind_eq_some_iff.mp hrest
    obtain ⟨ready, hready, hrest⟩ := Option.bind_eq_some_iff.mp hrest
    have hprepared : heap.prepared this other = some ready := by
      rw [prepared, hclear, Option.bind_eq_bind, Option.bind_some, hold, Option.bind_eq_bind,
        Option.bind_some, hsource]
      exact hready
    have hother : ready.nodes other = some source := by
      rw [(write_eq_some hready).2, nodes_setNode_of_ne (Ne.symm hsame)]
      exact hsource
    refine .inr ⟨ready, source, hsame, hprepared, hother, ?_⟩
    obtain ⟨type, payload⟩ := source
    cases type with
    | jsonNull => exact .inl ⟨rfl, (Option.some.inj hrest).symm⟩
    | stray => exact .inl ⟨rfl, (Option.some.inj hrest).symm⟩
    | jsonBool =>
        obtain ⟨value, hvalue, hwrite⟩ := Option.bind_eq_some_iff.mp hrest
        cases payload <;> cases hvalue
        exact .inr (.inl ⟨show ¬ JsonType.jsonBool.Boxed by decide, rfl, (write_eq_some hwrite).2⟩)
    | jsonInt =>
        obtain ⟨value, hvalue, hwrite⟩ := Option.bind_eq_some_iff.mp hrest
        cases payload <;> cases hvalue
        exact .inr (.inl ⟨show ¬ JsonType.jsonInt.Boxed by decide, rfl, (write_eq_some hwrite).2⟩)
    | jsonDouble =>
        obtain ⟨value, hvalue, hwrite⟩ := Option.bind_eq_some_iff.mp hrest
        cases payload <;> cases hvalue
        exact .inr (.inl ⟨show ¬ JsonType.jsonDouble.Boxed by decide, rfl, (write_eq_some hwrite).2⟩)
    | jsonString =>
        obtain ⟨p, hp, htext⟩ := Option.bind_eq_some_iff.mp hrest
        obtain ⟨text, htext, hinstall⟩ := Option.bind_eq_some_iff.mp htext
        cases payload <;> cases hp
        exact .inr (.inr (.inl ⟨p, text, rfl, text?_eq_some htext, (install_eq_some hinstall).2⟩))
    | jsonArray =>
        obtain ⟨p, hp, hfound⟩ := Option.bind_eq_some_iff.mp hrest
        obtain ⟨⟨elements, capacity⟩, helements, hcopy⟩ := Option.bind_eq_some_iff.mp hfound
        obtain ⟨copied, hcopied, -, rfl⟩ := copyContainer_eq_some hcopy
        cases payload <;> cases hp
        exact .inr (.inr (.inr ⟨p, _, _, copied, _, elements?_eq_some helements, hcopied, .array, rfl⟩))
    | jsonObject =>
        obtain ⟨p, hp, hfound⟩ := Option.bind_eq_some_iff.mp hrest
        obtain ⟨entries, hentries, hcopy⟩ := Option.bind_eq_some_iff.mp hfound
        obtain ⟨copied, hcopied, -, rfl⟩ := copyContainer_eq_some hcopy
        cases payload <;> cases hp
        exact .inr (.inr (.inr ⟨p, _, _, copied, _, entries?_eq_some hentries, hcopied, .object, rfl⟩))

/-! ## Arrays and objects -/

theorem adopt_cases (hadopt : heap.adopt this = some heap') : ∃ j, heap.nodes this = some j ∧
    ((j.mType = .jsonArray ∧ heap' = heap) ∨ (j.mType ≠ .jsonArray ∧
      heap' = (heap.newBlock (.array [] 0)).setNode this ⟨.jsonArray, .mArray heap.top⟩)) := by
  obtain ⟨j, hnode, hrest⟩ := Option.bind_eq_some_iff.mp hadopt
  refine ⟨j, hnode, ?_⟩
  split_ifs at hrest with htype
  · exact .inl ⟨htype, (Option.some.inj hrest).symm⟩
  · exact .inr ⟨htype, (install_eq_some hrest).2⟩

theorem becomeArray_cases (hbecome : heap.becomeArray this = some heap') :
    ∃ j, heap.nodes this = some j ∧ ((j.mType = .jsonArray ∧ heap' = heap) ∨
      ∃ cleared, j.mType ≠ .jsonArray ∧ heap.clear this = some cleared ∧
        heap' = (cleared.newBlock (.array [] 0)).setNode this ⟨.jsonArray, .mArray cleared.top⟩) := by
  obtain ⟨j, hnode, hrest⟩ := Option.bind_eq_some_iff.mp hbecome
  refine ⟨j, hnode, ?_⟩
  split_ifs at hrest with htype
  · exact .inl ⟨htype, (Option.some.inj hrest).symm⟩
  · obtain ⟨cleared, hclear, hinstall⟩ := Option.bind_eq_some_iff.mp hrest
    exact .inr ⟨cleared, htype, hclear, (install_eq_some hinstall).2⟩

theorem becomeObject_cases (hbecome : heap.becomeObject this = some heap') :
    ∃ j, heap.nodes this = some j ∧ ((j.mType = .jsonObject ∧ heap' = heap) ∨
      ∃ cleared, j.mType ≠ .jsonObject ∧ heap.clear this = some cleared ∧
        heap' = (cleared.newBlock (.object OrderedMap.empty)).setNode this
          ⟨.jsonObject, .mObject cleared.top⟩) := by
  obtain ⟨j, hnode, hrest⟩ := Option.bind_eq_some_iff.mp hbecome
  refine ⟨j, hnode, ?_⟩
  split_ifs at hrest with htype
  · exact .inl ⟨htype, (Option.some.inj hrest).symm⟩
  · obtain ⟨cleared, hclear, hinstall⟩ := Option.bind_eq_some_iff.mp hrest
    exact .inr ⟨cleared, htype, hclear, (install_eq_some hinstall).2⟩

/-- `push_back` puts the copy behind the others, or moves all of them to new
storage. -/
theorem pushBack_cases {value : Json δ} (hpush : heap.pushBack storage this value = some heap') :
    ∃ j p elements capacity copy, heap.nodes this = some j ∧ j.mValue = .mArray p ∧
      heap.blocks p = some (.array elements capacity) ∧
      value.copied (storage.stale heap.top) = some copy ∧
      ((elements.length < capacity ∧
          heap' = (heap.newNode copy).setBlock p (.array (elements ++ [heap.top]) capacity)) ∨
        ∃ moved capacity', capacity ≤ elements.length ∧
          copyAll storage elements (heap.newNode copy) = some moved ∧
          heap' = (moved.discard elements).setBlock p
            (.array (List.range' (heap.top + 1) elements.length ++ [heap.top]) capacity')) := by
  obtain ⟨⟨type, payload⟩, hnode, hrest⟩ := Option.bind_eq_some_iff.mp hpush
  obtain ⟨p, hp, hfound⟩ := Option.bind_eq_some_iff.mp hrest
  obtain ⟨⟨elements, capacity⟩, helements, hcopy⟩ := Option.bind_eq_some_iff.mp hfound
  obtain ⟨copy, hcopied, hstore⟩ := Option.bind_eq_some_iff.mp hcopy
  cases payload <;> cases hp
  refine ⟨_, p, elements, capacity, copy, hnode, rfl, elements?_eq_some helements, hcopied, ?_⟩
  dsimp only at hstore
  split_ifs at hstore with hroom
  · exact .inl ⟨hroom, (Option.some.inj hstore).symm⟩
  · obtain ⟨moved, hmoved, hset⟩ := Option.bind_eq_some_iff.mp hstore
    exact .inr ⟨moved, _, Nat.le_of_not_lt hroom, hmoved, (Option.some.inj hset).symm⟩

/-- `operator[]` of a map finds the entry, or inserts a null. -/
theorem entry_cases {key : List Char} {addr : ℕ} (hentry : heap.entry this key = some (heap', addr)) :
    ∃ j p entries, heap.nodes this = some j ∧ j.mValue = .mObject p ∧
      heap.blocks p = some (.object entries) ∧
      ((entries.find? key = some addr ∧ heap' = heap) ∨
        (entries.find? key = none ∧ addr = heap.top ∧
          heap' = (heap.newNode .null).setBlock p (.object (entries.insert key heap.top)))) := by
  obtain ⟨⟨type, payload⟩, hnode, hrest⟩ := Option.bind_eq_some_iff.mp hentry
  obtain ⟨p, hp, hfound⟩ := Option.bind_eq_some_iff.mp hrest
  obtain ⟨entries, hentries, hstore⟩ := Option.bind_eq_some_iff.mp hfound
  cases payload <;> cases hp
  refine ⟨_, p, entries, hnode, rfl, entries?_eq_some hentries, ?_⟩
  cases hfind : entries.find? key with
  | some addr' =>
      rw [hfind] at hstore
      cases hstore
      exact .inl ⟨rfl, rfl⟩
  | none =>
      rw [hfind] at hstore
      cases hstore
      exact .inr ⟨rfl, rfl, rfl⟩

end JsonHeap

end CppProjects
