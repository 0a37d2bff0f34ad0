import CppProjects.Json.JsonCopies

/-!
# Values survive copying

A copy that is constructed where the tag of the original was before prints what the
original printed, unless the call changes a node or a block that the original is made
of.
-/

namespace CppProjects

variable {δ : Type}

namespace JsonHeap

open NodeHeap

/-- The calls that copy values. -/
inductive CopyCall
  | construct (other : ℕ)
  | append (this other : ℕ)
  /-- One turn of the loop in `operator[](int)`. -/
  | grow (this : ℕ)
  | assign (this other : ℕ)

namespace CopyCall

def run (storage : Storage) (heap : JsonHeap δ) : CopyCall → Option (JsonHeap δ)
  | construct other => heap.copyConstruct storage other
  | append this other => JsonHeap.append heap storage this other
  | grow this => do
      let j ← heap.nodes this
      if j.mType = .jsonArray then heap.pushBack storage this .null else none
  | assign this other => heap.assignJson storage this other

/-- The block of the array in a node. -/
def arrayBlock (heap : JsonHeap δ) (this : ℕ) : Option ℕ :=
  match heap.nodes this with
  | some ⟨.jsonArray, .mArray p⟩ => some p
  | _ => none

/-- The originals that a call copies, with the addresses of the copies. -/
def sources (heap : JsonHeap δ) : CopyCall → List (ℕ × Json δ)
  | construct other => (heap.nodes other).elim [] fun source => [(heap.top, source)]
  | append this other => (heap.nodes other).elim [] fun value =>
      if (arrayBlock heap this).isSome then heap.pushCopies this value else [(heap.top + 1, value)]
  | grow this => heap.pushCopies this .null
  | assign this other => if this = other then [] else heap.originals heap.top (heap.elementsOf other)

def changedNode : CopyCall → Option ℕ
  | construct _ => none
  | append this _ | grow this | assign this _ => some this

def changedBlock (heap : JsonHeap δ) : CopyCall → Option ℕ
  | construct _ => none
  | append this _ | grow this => arrayBlock heap this
  | assign this _ => (heap.nodes this).bind Json.block?

end CopyCall

/-- Nothing that lies within `original` is the node or the block. -/
structure Clear (heap : JsonHeap δ) (node block : Option ℕ) (original : Json δ) : Prop where
  below : ∀ addr, heap.Below original addr → some addr ≠ node
  parts : ∀ j, heap.Part original j → ∀ p, j.block? = some p → some p ≠ block

/-- The call changes nothing that `original` is made of.  A value that is no array may be
appended to itself only if there is nothing to copy. -/
structure Undisturbed (heap : JsonHeap δ) (call : CopyCall) (original : Json δ) : Prop where
  self : ∀ this, call = .append this this → CopyCall.arrayBlock heap this = none →
    original.mType.member = none
  clear : heap.Clear call.changedNode (call.changedBlock heap) original

variable {heap heap' : JsonHeap δ} {storage : Storage} {ostream : δ → List Char}
  {this other p addr place : ℕ} {node block : Option ℕ} {j original copy : Json δ}
  {text : List Char}

/-! ## What a call leaves alone -/

/-- Only `node`, `block` and the nodes in it have changed. -/
structure Spares (heap heap' : JsonHeap δ) (node block : Option ℕ) : Prop where
  blocks : ∀ q b, heap.blocks q = some b → some q ≠ block → heap'.blocks q = some b
  nodes : ∀ q addr, heap.Contains q addr → some q ≠ block → some addr ≠ node →
    heap'.nodes addr = heap.nodes addr

theorem Below.exists_part (hbelow : heap.Below original addr) :
    ∃ j p, heap.Part original j ∧ j.block? = some p ∧ heap.Contains p addr := by
  cases hbelow with
  | direct hmem =>
      obtain ⟨p, hblock, hcontains⟩ := mem_contents hmem
      exact ⟨original, p, .inl rfl, hblock, hcontains⟩
  | @deeper middle _ hbelow hmem =>
      cases hnode : heap.nodes middle with
      | none =>
          rw [elementsOf, hnode] at hmem
          cases hmem
      | some j =>
          rw [elementsOf_eq hnode] at hmem
          obtain ⟨p, hblock, hcontains⟩ := mem_contents hmem
          exact ⟨j, p, .inr ⟨middle, hbelow, hnode⟩, hblock, hcontains⟩

theorem Spares.blocks_eq (hspares : Spares heap heap' node block) (hprints : heap.Prints ostream original text)
    (hpart : heap.Part original j) (hblock : j.block? = some p) (hne : some p ≠ block) :
    heap'.blocks p = heap.blocks p := by
  obtain ⟨text', hprints'⟩ := hprints.part hpart
  obtain ⟨b, hb⟩ := hprints'.exists_block hblock
  rw [hb, hspares.blocks p b hb hne]

/-- A value that is left alone is printed as before. -/
theorem Spares.str_eq (hspares : Spares heap heap' node block) (hprints : heap.Prints ostream original text)
    (hclear : heap.Clear node block original) {fuel : ℕ} :
    heap'.str ostream fuel original = heap.str ostream fuel original := by
  apply str_congr
  · intro addr hbelow
    obtain ⟨j, p, hpart, hblock, hcontains⟩ := hbelow.exists_part
    exact hspares.nodes p addr hcontains (hclear.parts j hpart p hblock) (hclear.below addr hbelow)
  · intro j hpart p hblock
    exact hspares.blocks_eq hprints hpart hblock (hclear.parts j hpart p hblock)

/-- If nothing within the value has changed afterwards, then nothing had before. -/
theorem Spares.clear_of_clear (hspares : Spares heap heap' node block)
    (hprints : heap.Prints ostream original text) (hclear : heap'.Clear node block original) :
    heap.Clear node block original := by
  have hcontents : ∀ {j}, heap.Part original j → heap'.Part original j →
      heap'.contents j = heap.contents j := fun hpart hpart' =>
    contents_congr fun p hblock => hspares.blocks_eq hprints hpart hblock (hclear.parts _ hpart' p hblock)
  have hkept : ∀ {j addr}, heap'.Part original j → addr ∈ heap.contents j → some addr ≠ node →
      heap'.nodes addr = heap.nodes addr := by
    intro j addr hpart' hmem hne
    obtain ⟨p, hblock, hcontains⟩ := mem_contents hmem
    exact hspares.nodes p addr hcontains (hclear.parts j hpart' p hblock) hne
  have hbelow : ∀ addr, heap.Below original addr →
      heap'.Below original addr ∧ heap'.nodes addr = heap.nodes addr := by
    intro addr hbelow
    induction hbelow with
    | direct hmem =>
        have hmem' := hcontents (.inl rfl) (.inl rfl) ▸ hmem
        exact ⟨.direct hmem', hkept (.inl rfl) hmem (hclear.below _ (.direct hmem'))⟩
    | @deeper middle addr hbelow hmem ih =>
        obtain ⟨hbelow', hsame⟩ := ih
        cases hnode : heap.nodes middle with
        | none =>
            rw [elementsOf, hnode] at hmem
            cases hmem
        | some j =>
            have hnode' := hsame.trans hnode
            have hpart' : heap'.Part original j := .inr ⟨middle, hbelow', hnode'⟩
            rw [elementsOf_eq hnode] at hmem
            have hmem' : addr ∈ heap'.elementsOf middle := by
              rw [elementsOf_eq hnode', hcontents (.inr ⟨middle, hbelow, hnode⟩) hpart']
              exact hmem
            have hdeeper := hbelow'.deeper hmem'
            exact ⟨hdeeper, hkept hpart' hmem (hclear.below _ hdeeper)⟩
  constructor
  · exact fun addr h => hclear.below addr (hbelow addr h).1
  · rintro j (rfl | ⟨addr, h, hnode⟩) p hblock
    · exact hclear.parts _ (.inl rfl) p hblock
    · obtain ⟨h', hsame⟩ := hbelow addr h
      exact hclear.parts j (.inr ⟨addr, h', hsame.trans hnode⟩) p hblock

/-! ## A copy and its original -/

/-- The tag and the payload that the copy constructor leaves. -/
def IsCopy (stale : JsonType) (original copy : Json δ) : Prop :=
  copy.mType = stale ∧ (original.mType.member = none ∨ copy.mValue = original.mValue)

theorem isCopy_of_copied {stale : JsonType} (hcopied : original.copied stale = some copy) :
    IsCopy stale original copy := by
  obtain ⟨htype, ⟨hnone, -⟩ | ⟨m, -, -, hvalue⟩⟩ := Json.copied_eq_some hcopied
  · exact ⟨htype, .inl hnone⟩
  · exact ⟨htype, .inr hvalue⟩

/-- Without a member there is nothing but the tag to print. -/
theorem str_of_memberless (hmember : original.mType.member = none) (htype : copy.mType = original.mType)
    (fuel : ℕ) : heap'.str ostream fuel copy = heap.str ostream fuel original := by
  obtain ⟨type, payload⟩ := original
  obtain ⟨type', payload'⟩ := copy
  obtain rfl : type' = type := htype
  cases fuel with
  | zero => rfl
  | succ fuel => cases type' <;> cases hmember <;> rfl

theorem clear_of_memberless (hmember : original.mType.member = none) : heap.Clear node block original := by
  have hblock : original.block? = none := by
    obtain ⟨type, payload⟩ := original
    cases type <;> cases hmember <;> rfl
  have hbelow : ∀ addr, ¬ heap.Below original addr := by
    intro addr hbelow
    induction hbelow with
    | direct hmem =>
        obtain ⟨p, hsome, -⟩ := mem_contents hmem
        rw [hblock] at hsome
        cases hsome
    | deeper _ _ ih => exact ih
  constructor
  · exact fun addr h => absurd h (hbelow addr)
  · rintro j (rfl | ⟨addr, h, -⟩) p hsome
    · rw [hblock] at hsome
      cases hsome
    · exact absurd h (hbelow addr)

/-- A copy keeps type and text exactly if its storage had the tag and nothing within the
original is changed, where a value that is changed in this way cannot be printed. -/
theorem Spares.copy_survives_iff (hspares : Spares heap heap' node block)
    (hprints : heap.Prints ostream original text) {stale : JsonType}
    (hcopy : IsCopy stale original copy)
    (hlost : heap'.Prints ostream copy text → heap'.Clear node block copy) :
    (copy.mType = original.mType ∧ heap'.Prints ostream copy text) ↔
      stale = original.mType ∧ heap.Clear node block original := by
  obtain ⟨htype, hvalue⟩ := hcopy
  constructor
  · rintro ⟨hsame, hafter⟩
    refine ⟨htype.symm.trans hsame, ?_⟩
    rcases hvalue with hmember | hvalue
    · exact clear_of_memberless hmember
    · obtain rfl : copy = original := by
        cases copy
        cases original
        cases hsame
        cases hvalue
        rfl
      exact hspares.clear_of_clear hprints (hlost hafter)
  · rintro ⟨rfl, hclear⟩
    refine ⟨htype, ?_⟩
    obtain ⟨fuel, hstr⟩ := hprints
    refine ⟨fuel, ?_⟩
    rcases hvalue with hmember | hvalue
    · rw [str_of_memberless hmember htype]
      exact hstr
    · obtain rfl : copy = original := by
        cases copy
        cases original
        cases htype
        cases hvalue
        rfl
      rw [hspares.str_eq ⟨fuel, hstr⟩ hclear]
      exact hstr

/-- A copy that lies within itself is not printed. -/
theorem not_prints_of_mem_contents (hnode : heap.nodes place = some copy) (hpart : heap.Part copy j)
    (hmem : place ∈ heap.contents j) : ¬ heap.Prints ostream copy text := by
  apply not_prints_of_below_self hnode
  rcases hpart with rfl | ⟨addr, hbelow, hnode'⟩
  · exact .direct hmem
  · exact hbelow.deeper (elementsOf_eq hnode' ▸ hmem)

/-! ## What the calls do -/

theorem block?_eq_some : j.block? = some p ↔
    j.mType.Boxed ∧ j.mValue.member = j.mType.member ∧ j.mValue.pointer = some p := by
  obtain ⟨type, payload⟩ := j
  cases type <;> cases payload <;>
    simp [Json.block?, JsonType.Boxed, Payload.member, JsonType.member, Payload.pointer]

theorem Spares.newRoot (hscoped : heap.Scoped) : Spares heap (heap.newRoot copy) none none where
  blocks := fun _ _ hblock _ => hblock
  nodes := fun _ _ hcontains _ _ => nodes_newNode_of_ne (hscoped.contains_lt hcontains).ne

theorem Spares.clear (hscoped : heap.Scoped) (hclear : heap.clear this = some heap') :
    Spares heap heap' (some this) ((heap.nodes this).bind Json.block?) := by
  obtain ⟨j, hnode, ⟨p, b, hboxed, hmember, hpointer, hb, -, rfl⟩ | ⟨-, rfl⟩⟩ := clear_cases hclear
  · have hblock : (heap.nodes this).bind Json.block? = some p := by
      rw [hnode]
      exact block?_eq_some.mpr ⟨hboxed, hmember, hpointer⟩
    rw [hblock]
    constructor
    · intro q b' hb' hne
      have hkept : (heap.drop p b).blocks q = heap.blocks q :=
        blocks_drop_of_ne fun heq => hne (congrArg some heq)
      exact hkept.trans hb'
    · intro q addr hcontains hne haddr
      rw [nodes_setNode_of_ne fun heq => haddr (congrArg some heq)]
      apply nodes_discard_of_notMem
      exact fun hmem => hne (congrArg some (hscoped.apart hcontains ⟨b, hb, hmem⟩))
  · exact ⟨fun _ _ hblock _ => hblock,
      fun _ _ _ _ hne => nodes_setNode_of_ne fun heq => hne (congrArg some heq)⟩

/-- What `push_back` does to the array and to the rest. -/
theorem pushBack_spares (hscoped : heap.Scoped) {value : Json δ}
    (hpush : heap.pushBack storage this value = some heap') : ∃ j p elements capacity,
      heap.nodes this = some j ∧ j.mValue = .mArray p ∧
      heap'.blocks p = some (.array elements capacity) ∧
      (∀ made ∈ heap.pushCopies this value, made.1 ∈ elements) ∧ Spares heap heap' none (some p) ∧
      ∀ j', heap'.nodes this = some j' → j' = j := by
  obtain ⟨j, p, elements, capacity, copy, hnode, hvalue, hblock, -, hcases⟩ := pushBack_cases hpush
  have hlt : ∀ {addr}, (heap.nodes addr).isSome → addr ≠ heap.top := by
    intro addr hlive
    obtain ⟨j, hj⟩ := Option.isSome_iff_exists.mp hlive
    exact (hscoped.nodes_lt hj).ne
  have helements : ∀ addr ∈ elements, addr < heap.top := Scoped.children_lt hscoped hblock
  rw [pushCopies, crowded_eq hnode hvalue hblock]
  rcases hcases with ⟨hroom, rfl⟩ | ⟨moved, capacity', hfull, hmoved, rfl⟩
  · refine ⟨j, p, _, capacity, hnode, hvalue, blocks_setBlock_self, ?_, ⟨?_, ?_⟩, ?_⟩
    · intro made hmem
      rw [if_pos hroom] at hmem
      obtain rfl := List.mem_singleton.mp hmem
      exact List.mem_append_right _ (List.mem_singleton_self _)
    · exact fun q b hb hne => (blocks_setBlock_of_ne fun heq => hne (congrArg some heq)).trans hb
    · exact fun q addr hcontains _ _ => nodes_newNode_of_ne (hlt (hscoped.live hcontains))
    · intro j' hj'
      have hsame : (heap.newNode copy).nodes this = some j' := hj'
      rw [nodes_newNode_of_ne (hlt (Option.isSome_of_eq_some hnode)), hnode] at hsame
      exact (Option.some.inj hsame).symm
  · obtain ⟨copies, hcopies, rfl⟩ := copyAll_eq_some hmoved
      fun addr hmem => Nat.lt_succ_of_lt (helements addr hmem)
    have hold : ∀ {addr}, (heap.nodes addr).isSome →
        ((heap.newNode copy).newNodes copies).nodes addr = heap.nodes addr := by
      intro addr hlive
      obtain ⟨j, hj⟩ := Option.isSome_iff_exists.mp hlive
      rw [nodes_newNodes_of_lt (Nat.lt_succ_of_lt (hscoped.nodes_lt hj)),
        nodes_newNode_of_ne (hscoped.nodes_lt hj).ne]
    refine ⟨j, p, _, capacity', hnode, hvalue, blocks_setBlock_self, ?_, ⟨?_, ?_⟩, ?_⟩
    · intro made hmem
      rw [if_neg (Nat.not_lt.mpr hfull)] at hmem
      rcases List.mem_cons.mp hmem with rfl | hmem
      · exact List.mem_append_right _ (List.mem_singleton_self _)
      · obtain ⟨i, addr, hget, -, hplace⟩ := mem_originals.mp hmem
        rw [hplace]
        apply List.mem_append_left
        exact List.mem_range'.mpr ⟨i, (List.getElem?_eq_some_iff.mp hget).1, by rw [Nat.one_mul]⟩
    · intro q b hb hne
      rw [blocks_setBlock_of_ne fun heq => hne (congrArg some heq)]
      change ((heap.newNode copy).newNodes copies).blocks q = _
      rw [blocks_newNodes]
      exact hb
    · intro q addr hcontains hne _
      refine (nodes_discard_of_notMem fun hmem => ?_).trans (hold (hscoped.live hcontains))
      exact hne (congrArg some (hscoped.apart hcontains ⟨_, hblock, hmem⟩))
    · intro j' hj'
      have hsame := (nodes_of_discard hj').2
      rw [hold (Option.isSome_of_eq_some hnode), hnode] at hsame
      exact (Option.some.inj hsame).symm

/-- What is printed has the member of its tag. -/
theorem Prints.agrees (hprints : heap.Prints ostream j text) : j.Agrees := by
  obtain ⟨fuel, hstr⟩ := hprints
  intro m hm
  obtain ⟨type, payload⟩ := j
  cases fuel with
  | zero => cases hstr
  | succ fuel => cases type <;> cases hm <;> cases payload <;> first | rfl | cases hstr

/-- What is printed from the block of an array are its elements. -/
theorem Prints.contents_eq {elements : List ℕ} {capacity : ℕ} (hprints : heap.Prints ostream j text)
    (hblock : j.block? = some p) (harray : heap.blocks p = some (.array elements capacity)) :
    heap.contents j = elements := by
  obtain ⟨fuel, hstr⟩ := hprints
  obtain ⟨type, payload⟩ := j
  cases fuel with
  | zero => cases hstr
  | succ fuel =>
      cases type <;> cases payload <;> cases hblock
      · obtain ⟨found, hfound, -⟩ := Option.bind_eq_some_iff.mp hstr
        rw [text?_eq_some hfound] at harray
        cases harray
      · exact contents_array harray
      · exact congrArg (fun block => block.elim [] JsonBlock.children) harray

/-- A copy in the array of `this`, from which it can be reached, is not printed. -/
theorem clear_of_prints {elements : List ℕ} {capacity : ℕ} (hnode : heap.nodes place = some copy)
    (hprints : heap.Prints ostream copy text) (harray : heap.blocks p = some (.array elements capacity))
    (hmem : place ∈ elements) (hthis : ∀ j, heap.nodes this = some j → j = ⟨.jsonArray, .mArray p⟩) :
    heap.Clear (some this) (some p) copy := by
  have hparts : ∀ j, heap.Part copy j → ∀ q, j.block? = some q → some q ≠ some p := by
    intro j hpart q hblock heq
    obtain rfl := Option.some.inj heq
    obtain ⟨text', hprints'⟩ := hprints.part hpart
    rw [← hprints'.contents_eq hblock harray] at hmem
    exact not_prints_of_mem_contents hnode hpart hmem hprints
  refine ⟨fun addr hbelow heq => ?_, hparts⟩
  obtain rfl := Option.some.inj heq
  obtain ⟨fuel, hstr⟩ := hprints
  obtain ⟨j, -, -, hj, -, -⟩ := str_below hstr hbelow
  obtain rfl := hthis j hj
  exact hparts _ (.inr ⟨addr, hbelow, hj⟩) p rfl rfl

theorem Clear.weaken (hclear : heap.Clear node block original) : heap.Clear node none original :=
  ⟨hclear.below, fun _ _ _ _ => Option.some_ne_none _⟩

theorem Spares.weaken (hspares : Spares heap heap' none block) : Spares heap heap' node block :=
  ⟨hspares.blocks, fun q addr hcontains hne _ => hspares.nodes q addr hcontains hne (by simp)⟩

/-- What survives and how it depends on the storage. -/
def Survives (heap' : JsonHeap δ) (ostream : δ → List Char) (place : ℕ) (original : Json δ)
    (text : List Char) : Prop :=
  ∃ copy, heap'.nodes place = some copy ∧ copy.mType = original.mType ∧ heap'.Prints ostream copy text

theorem survives_iff_of_node {P : Prop} (hnode : heap'.nodes place = some copy)
    (hiff : (copy.mType = original.mType ∧ heap'.Prints ostream copy text) ↔ P) :
    heap'.Survives ostream place original text ↔ P := by
  rw [← hiff]
  constructor
  · rintro ⟨copy', hnode', hboth⟩
    obtain rfl := Option.some.inj (hnode.symm.trans hnode')
    exact hboth
  · exact fun hboth => ⟨copy, hnode, hboth⟩

theorem arrayBlock_eq_some : CopyCall.arrayBlock heap this = some p ↔
    heap.nodes this = some ⟨.jsonArray, .mArray p⟩ := by
  rw [CopyCall.arrayBlock]
  split
  next q hnode => simp [hnode]
  next hother =>
    constructor
    · intro heq
      cases heq
    · exact fun hnode => absurd hnode (hother p)

theorem survives_construct_iff (hscoped : heap.Scoped)
    (hcopy : heap.copyConstruct storage other = some heap')
    {made : ℕ × Json δ} (hmem : made ∈ (CopyCall.construct other).sources heap)
    (hprints : heap.Prints ostream made.2 text) :
    heap'.Survives ostream made.1 made.2 text ↔
      storage.stale made.1 = made.2.mType ∧ heap.Clear none none made.2 := by
  obtain ⟨source, hsource, -⟩ := Option.bind_eq_some_iff.mp hcopy
  rw [CopyCall.sources, hsource, Option.elim_some] at hmem
  obtain ⟨copy, hcopied, hnode⟩ := (made_copyConstruct hsource hcopy).copied made hmem
  obtain ⟨source', hsource', hrest⟩ := Option.bind_eq_some_iff.mp hcopy
  obtain ⟨copy', -, hroot⟩ := Option.bind_eq_some_iff.mp hrest
  obtain rfl := Option.some.inj hroot
  apply survives_iff_of_node hnode
  apply (Spares.newRoot hscoped).copy_survives_iff hprints (isCopy_of_copied hcopied)
  exact fun _ => ⟨fun _ _ => Option.some_ne_none _, fun _ _ _ _ => Option.some_ne_none _⟩

/-- What `push_back` copies to an array that is there. -/
theorem survives_push_iff (hscoped : heap.Scoped) {value : Json δ}
    (harray : heap.nodes this = some ⟨.jsonArray, .mArray p⟩)
    (hpush : heap.pushBack storage this value = some heap')
    {made : ℕ × Json δ} (hmem : made ∈ heap.pushCopies this value)
    (hprints : heap.Prints ostream made.2 text) :
    heap'.Survives ostream made.1 made.2 text ↔
      storage.stale made.1 = made.2.mType ∧ heap.Clear (some this) (some p) made.2 := by
  obtain ⟨copy, hcopied, hnode⟩ := (made_pushBack hscoped hpush).copied made hmem
  obtain ⟨j, q, elements, capacity, hj, hvalue, hblock, hplaces, hspares, hthis⟩ :=
    pushBack_spares hscoped hpush
  obtain rfl := Option.some.inj (harray.symm.trans hj)
  obtain rfl := Payload.mArray.inj hvalue
  apply survives_iff_of_node hnode
  apply hspares.weaken.copy_survives_iff hprints (isCopy_of_copied hcopied)
  exact fun hafter => clear_of_prints hnode hafter hblock (hplaces made hmem) hthis

/-- What `append` copies to a new array. -/
theorem survives_append_iff (hscoped : heap.Scoped) (hnone : CopyCall.arrayBlock heap this = none)
    (happend : heap.append storage this other = some heap') {value : Json δ}
    (hvalue : heap.nodes other = some value) (hprints : heap.Prints ostream value text) :
    heap'.Survives ostream (heap.top + 1) value text ↔ storage.stale (heap.top + 1) = value.mType ∧
      (other = this → value.mType.member = none) ∧ heap.Clear (some this) none value := by
  obtain ⟨adopted, hadopt, hrest⟩ := Option.bind_eq_some_iff.mp happend
  obtain ⟨value', hvalue', hpush⟩ := Option.bind_eq_some_iff.mp hrest
  have hadopted : adopted.Scoped := Scoped.adopt hscoped hadopt
  obtain ⟨j, hj, ⟨htype, hsame⟩ | ⟨hne, rfl⟩⟩ := adopt_cases hadopt
  · rw [hsame] at hpush
    obtain ⟨j', p, elements, capacity, hj', hmArray, -⟩ := pushBack_spares hscoped hpush
    obtain rfl := Option.some.inj (hj.symm.trans hj')
    have heq : j = ⟨.jsonArray, .mArray p⟩ := Json.ext htype hmArray
    rw [arrayBlock_eq_some.mpr (hj.trans (congrArg some heq))] at hnone
    cases hnone
  have hthis : ((heap.newBlock (.array [] 0)).setNode this (⟨.jsonArray, .mArray heap.top⟩ : Json δ)).nodes
      this = some ⟨.jsonArray, .mArray heap.top⟩ := nodes_setNode_self
  obtain ⟨j', p, elements, capacity, hj', hmArray, hblock, hplaces, hspares, hkept⟩ :=
    pushBack_spares hadopted hpush
  obtain rfl := Option.some.inj (hthis.symm.trans hj')
  obtain rfl := Payload.mArray.inj hmArray
  obtain ⟨copy, hcopied, hnode⟩ := (made_pushBack hadopted hpush).copied _ List.mem_cons_self
  have hplace : heap.top + 1 ∈ elements := hplaces _ List.mem_cons_self
  have hall : Spares heap heap' (some this) none := by
    constructor
    · intro q b hb _
      have hne : q ≠ heap.top := (hscoped.blocks_lt hb).ne
      exact hspares.blocks q b ((blocks_newBlock_of_ne hne).trans hb) fun heq => hne (Option.some.inj heq)
    · intro q addr hcontains _ haddr
      obtain ⟨b, hb, hmem⟩ := hcontains
      have hne : q ≠ heap.top := (hscoped.blocks_lt hb).ne
      have hthere := hspares.nodes q addr ⟨b, (blocks_newBlock_of_ne hne).trans hb, hmem⟩
        (fun heq => hne (Option.some.inj heq)) (Option.some_ne_none _)
      rw [hthere, nodes_setNode_of_ne fun heq => haddr (congrArg some heq)]
      rfl
  apply survives_iff_of_node hnode
  by_cases hsame : other = this
  · -- the value is the new array already
    subst hsame
    obtain rfl := Option.some.inj (hthis.symm.trans hvalue')
    obtain rfl := Option.some.inj (hj.symm.trans hvalue)
    obtain ⟨htype, ⟨hmember, -⟩ | ⟨m, -, -, hmArray⟩⟩ := Json.copied_eq_some hcopied
    · cases hmember
    constructor
    · rintro ⟨htag, hafter⟩
      have hmember : j.mType.member = none := by
        by_contra hsome
        obtain ⟨m, hm⟩ := Option.ne_none_iff_exists'.mp hsome
        have hread := hafter.agrees m (htag ▸ hm)
        rw [hmArray] at hread
        exact hne (JsonType.member_injective hm (hread.symm ▸ rfl))
      exact ⟨htype.symm.trans htag, fun _ => hmember, clear_of_memberless hmember⟩
    · rintro ⟨hstale, hmember, -⟩
      obtain ⟨fuel, hstr⟩ := hprints
      have htag := htype.trans hstale
      exact ⟨htag, fuel, (str_of_memberless (hmember rfl) htag fuel).trans hstr⟩
  · have hsource : value' = value := by
      have hold : heap.nodes other = some value' := (nodes_setNode_of_ne hsame).symm.trans hvalue'
      exact Option.some.inj (hold.symm.trans hvalue)
    subst hsource
    have hiff := hall.copy_survives_iff hprints (isCopy_of_copied hcopied)
      fun hafter => (clear_of_prints hnode hafter hblock hplace hkept).weaken
    exact ⟨fun hafter => ⟨(hiff.mp hafter).1, fun heq => absurd heq hsame, (hiff.mp hafter).2⟩,
      fun hcond => hiff.mpr ⟨hcond.1, hcond.2.2⟩⟩

/-! ## The elements of a container that is assigned -/

theorem nodes_of_clear {cleared : JsonHeap δ} (hclear : heap.clear this = some cleared) (hne : addr ≠ this)
    (hnode : cleared.nodes addr = some j) : heap.nodes addr = some j := by
  obtain ⟨j', -, ⟨p, b, -, -, -, -, -, rfl⟩ | ⟨-, rfl⟩⟩ := clear_cases hclear
  · exact (nodes_of_discard ((nodes_setNode_of_ne hne).symm.trans hnode)).2
  · exact (nodes_setNode_of_ne hne).symm.trans hnode

theorem blocks_of_clear {cleared : JsonHeap δ} {b : JsonBlock} (hclear : heap.clear this = some cleared)
    (hblock : cleared.blocks p = some b) : heap.blocks p = some b := by
  obtain ⟨j', -, ⟨q, b', -, -, -, -, -, rfl⟩ | ⟨-, rfl⟩⟩ := clear_cases hclear
  · have hdrop : (heap.drop q b').blocks p = some b := hblock
    exact (blocks_of_drop hdrop).2
  · exact hblock

theorem top_of_clear {cleared : JsonHeap δ} (hclear : heap.clear this = some cleared) :
    cleared.top = heap.top := by
  obtain ⟨j', -, ⟨q, b', -, -, -, -, -, rfl⟩ | ⟨-, rfl⟩⟩ := clear_cases hclear <;> rfl

/-- The block of a node is gone when it has been cleared. -/
theorem blocks_clear_self {cleared : JsonHeap δ} (hclear : heap.clear this = some cleared)
    (hblock : (heap.nodes this).bind Json.block? = some p) :
    (∃ b, heap.blocks p = some b) ∧ cleared.blocks p = none := by
  obtain ⟨j, hnode, hcases⟩ := clear_cases hclear
  rw [hnode] at hblock
  obtain ⟨hboxed, hmember, hpointer⟩ := block?_eq_some.mp hblock
  rcases hcases with ⟨q, b, -, -, hpointer', hb, -, rfl⟩ | ⟨hunboxed, -⟩
  · obtain rfl := Option.some.inj (hpointer.symm.trans hpointer')
    have hgone : (heap.drop p b).blocks p = none := blocks_drop_self
    exact ⟨⟨b, hb⟩, hgone⟩
  · exact absurd hboxed hunboxed

/-- An element that is the target itself is cleared before it is copied. -/
theorem isCopy_of_cleared {cleared : JsonHeap δ} {old : Json δ} {type stale : JsonType}
    (hclear : heap.clear this = some cleared) (hold : cleared.nodes this = some old)
    (hnode : heap.nodes this = some original)
    (htype : type = .jsonArray ∨ type = .jsonObject)
    (hcopied : (⟨type, old.mValue⟩ : Json δ).copied stale = some copy) : IsCopy stale original copy := by
  obtain ⟨hcopyType, hcases⟩ := Json.copied_eq_some hcopied
  obtain ⟨m, hm, hread, hvalue⟩ : ∃ m, type.member = some m ∧ old.mValue.member = some m ∧
      copy.mValue = old.mValue := by
    rcases hcases with ⟨hnone, -⟩ | hboth
    · rcases htype with rfl | rfl <;> cases hnone
    · exact hboth
  obtain ⟨j, hj, ⟨p, b, -, -, -, -, -, rfl⟩ | ⟨hunboxed, rfl⟩⟩ := clear_cases hclear
  · obtain rfl := Option.some.inj (nodes_setNode_self.symm.trans hold)
    cases hread
  · obtain rfl := Option.some.inj (nodes_setNode_self.symm.trans hold)
    obtain rfl := Option.some.inj (hnode.symm.trans hj)
    exact ⟨hcopyType, .inr hvalue⟩

/-- The heap when a cleared node has got copies of the elements and a block of them. -/
def replaced (cleared : JsonHeap δ) (this : ℕ) (emptied : Json δ) (copies : List (Json δ))
    (block : JsonBlock) (value : Json δ) : JsonHeap δ :=
  (((cleared.setNode this emptied).newNodes copies).newBlock block).setNode this value

section Replaced

variable {cleared : JsonHeap δ} {emptied value : Json δ} {copies : List (Json δ)}
  {block' : JsonBlock}

theorem nodes_replaced (hne : addr ≠ this) :
    (cleared.replaced this emptied copies block' value).nodes addr =
      ((cleared.setNode this emptied).newNodes copies).nodes addr :=
  nodes_setNode_of_ne hne

theorem blocks_replaced (hlt : p < cleared.top + copies.length) :
    (cleared.replaced this emptied copies block' value).blocks p = cleared.blocks p := by
  refine (blocks_newBlock_of_ne ?_).trans (congrFun blocks_newNodes p)
  rw [top_newNodes]
  exact hlt.ne

theorem Spares.replaced (hscoped : heap.Scoped) (hclear : heap.clear this = some cleared) :
    Spares heap (cleared.replaced this emptied copies block' value) (some this)
      ((heap.nodes this).bind Json.block?) := by
  have hspares := Spares.clear hscoped hclear
  have htop := top_of_clear hclear
  constructor
  · intro q b hb hne
    rw [blocks_replaced (Nat.lt_of_lt_of_le (htop ▸ hscoped.blocks_lt hb) (Nat.le_add_right _ _))]
    exact hspares.blocks q b hb hne
  · intro q x hcontains hne hx
    have hfar : x ≠ this := fun heq => hx (congrArg some heq)
    rw [nodes_replaced hfar, nodes_newNodes_of_lt (htop ▸ hscoped.contains_lt hcontains),
      nodes_setNode_of_ne hfar]
    exact hspares.nodes q x hcontains hne hx

/-- The block of the target is gone, and no address before the copies is used again. -/
theorem blocks_replaced_self (hscoped : heap.Scoped) (hclear : heap.clear this = some cleared)
    (hblock : (heap.nodes this).bind Json.block? = some p) :
    (cleared.replaced this emptied copies block' value).blocks p = none := by
  obtain ⟨⟨b, hb⟩, hgone⟩ := blocks_clear_self hclear hblock
  have hlt : p < cleared.top := top_of_clear hclear ▸ hscoped.blocks_lt hb
  rw [blocks_replaced (Nat.lt_of_lt_of_le hlt (Nat.le_add_right _ _)), hgone]

/-- An element of the source, or the target where it is one, and its copy. -/
theorem isCopy_of_element {old : Json δ} {type stale : JsonType} (hclear : heap.clear this = some cleared)
    (hold : cleared.nodes this = some old) (htype : type = .jsonArray ∨ type = .jsonObject)
    (hnode : heap.nodes addr = some original)
    (hread : (cleared.setNode this ⟨type, old.mValue⟩).nodes addr = some value)
    (hcopied : value.copied stale = some copy) : IsCopy stale original copy := by
  by_cases hsame : addr = this
  · subst hsame
    obtain rfl := Option.some.inj (nodes_setNode_self.symm.trans hread)
    exact isCopy_of_cleared hclear hold hnode htype hcopied
  · have hkept := nodes_of_clear hclear hsame ((nodes_setNode_of_ne hsame).symm.trans hread)
    obtain rfl := Option.some.inj (hnode.symm.trans hkept)
    exact isCopy_of_copied hcopied

end Replaced

theorem survives_assign_iff (hscoped : heap.Scoped)
    (hassign : heap.assignJson storage this other = some heap')
    {made : ℕ × Json δ} (hmem : made ∈ (CopyCall.assign this other).sources heap)
    (hprints : heap.Prints ostream made.2 text) :
    heap'.Survives ostream made.1 made.2 text ↔ storage.stale made.1 = made.2.mType ∧
      heap.Clear (some this) ((heap.nodes this).bind Json.block?) made.2 := by
  rcases assignJson_cases hassign with
    ⟨rfl, rfl⟩ | ⟨ready, source, hne, hprepared, hsource, hcases⟩
  · rw [CopyCall.sources, if_pos rfl] at hmem
    cases hmem
  rw [CopyCall.sources, if_neg hne] at hmem
  have hready := Scoped.prepared hscoped hprepared
  obtain ⟨cleared, old, source', hclear, hold, hsource', rfl⟩ := prepared_eq_some hprepared
  have hthere : heap.nodes other = some source :=
    nodes_of_clear hclear (Ne.symm hne) ((nodes_setNode_of_ne (Ne.symm hne)).symm.trans hsource)
  obtain rfl : source' = source :=
    Option.some.inj ((nodes_of_clear hclear (Ne.symm hne) hsource').symm.trans hthere)
  have hnone : heap.elementsOf other = [] → False := by
    intro hnil
    rw [hnil] at hmem
    cases hmem
  rcases hcases with ⟨hmember, rfl⟩ | ⟨hboxed, hvalue, rfl⟩ | ⟨p, text, rfl, -, rfl⟩ |
    ⟨p, block, block', copied, value, hblock, hcopied, hreplica, rfl⟩
  · exact (hnone (elementsOf_of_not_boxed hthere (JsonType.not_boxed_of_member hmember))).elim
  · exact (hnone (elementsOf_of_not_boxed hthere hboxed)).elim
  · exact (hnone (elementsOf_eq hthere)).elim
  · obtain ⟨copies, hcopies, rfl⟩ := copyAll_eq_some hcopied (Scoped.children_lt hready hblock)
    have htop := top_of_clear hclear
    have hlt : this < cleared.top := hready.nodes_lt nodes_setNode_self
    rw [elementsOf_of_replica hthere (blocks_of_clear hclear hblock) hreplica] at hmem
    obtain ⟨i, addr, haddr, hnode, hplace⟩ := mem_originals.mp hmem
    rw [← htop] at hplace
    have hi : i < copies.length := hcopies.1 ▸ (List.getElem?_eq_some_iff.mp haddr).1
    have hget := List.getElem?_eq_getElem hi
    obtain ⟨source, hread, hcopied⟩ := hcopies.2 i addr copies[i] haddr hget
    have hcopy : IsCopy (storage.stale made.1) made.2 copies[i] := by
      rw [hplace]
      refine isCopy_of_element hclear hold ?_ hnode hread hcopied
      cases hreplica <;> simp
    have hcontents : contents (replaced cleared this ⟨source'.mType, old.mValue⟩ copies block' value)
        value = List.range' cleared.top (children block).length := by
      have hrange : children block' = List.range' cleared.top (children block).length :=
        children_replica hreplica (List.length_range' ..)
      rw [← hrange]
      cases hreplica <;>
        exact congrArg (fun block => block.elim [] JsonBlock.children) blocks_newBlock_top
    have hall : Spares heap (replaced cleared this ⟨source'.mType, old.mValue⟩ copies block' value)
        (some this) ((heap.nodes this).bind Json.block?) := .replaced hscoped hclear
    have hfar : made.1 ≠ this := by
      rw [hplace]
      exact (Nat.lt_of_lt_of_le hlt (Nat.le_add_right _ _)).ne'
    have hmade : (replaced cleared this ⟨source'.mType, old.mValue⟩ copies block' value).nodes made.1 =
        some copies[i] := by
      rw [nodes_replaced hfar, hplace]
      exact (nodes_newNodes_add hi).trans hget
    apply survives_iff_of_node hmade
    apply hall.copy_survives_iff hprints hcopy
    intro hafter
    constructor
    · intro x hbelow heq
      obtain rfl := Option.some.inj heq
      apply not_prints_of_mem_contents hmade (.inr ⟨x, hbelow, nodes_setNode_self⟩) ?_ hafter
      rw [hcontents, hplace]
      exact List.mem_range'.mpr ⟨i, (List.getElem?_eq_some_iff.mp haddr).1, by rw [Nat.one_mul]⟩
    · intro j hpart q hq heq
      obtain ⟨text', hprints'⟩ := hafter.part hpart
      obtain ⟨b, hb⟩ := hprints'.exists_block hq
      rw [blocks_replaced_self hscoped hclear heq.symm] at hb
      cases hb

/-! ## Survival -/

theorem undisturbed_iff {call : CopyCall} (hself : ∀ this, call = .append this this →
    CopyCall.arrayBlock heap this = none → original.mType.member = none) :
    heap.Undisturbed call original ↔ heap.Clear call.changedNode (call.changedBlock heap) original :=
  ⟨Undisturbed.clear, fun hclear => ⟨hself, hclear⟩⟩

/-- A copy has the type of the original and prints what the original printed exactly if it
is constructed where that type's tag was before and the call does not change what the
original is made of. -/
theorem survives_iff [Zero δ] (ostream : δ → List Char) (hreach : (system storage).Reachable heap)
    {call : CopyCall} (hrun : call.run storage heap = some heap') {made : ℕ × Json δ}
    (hmem : made ∈ call.sources heap) {text : List Char} (hprints : heap.Prints ostream made.2 text) :
    heap'.Survives ostream made.1 made.2 text ↔
      storage.stale made.1 = made.2.mType ∧ heap.Undisturbed call made.2 := by
  have hscoped := scoped_of_reachable hreach
  cases call with
  | construct other =>
      rw [undisturbed_iff fun this heq => by cases heq]
      exact survives_construct_iff hscoped hrun hmem hprints
  | append this other =>
      cases harray : CopyCall.arrayBlock heap this with
      | some p =>
          have hself : ∀ this', CopyCall.append this other = .append this' this' →
              CopyCall.arrayBlock heap this' = none → made.2.mType.member = none := by
            intro this' heq hnone
            cases heq
            rw [harray] at hnone
            cases hnone
          have hblock : CopyCall.changedBlock heap (.append this other) = some p := harray
          have hthis := arrayBlock_eq_some.mp harray
          obtain ⟨adopted, hadopt, hrest⟩ := Option.bind_eq_some_iff.mp hrun
          obtain ⟨value, hvalue, hpush⟩ := Option.bind_eq_some_iff.mp hrest
          obtain ⟨j, hj, ⟨-, rfl⟩ | ⟨hne, -⟩⟩ := adopt_cases hadopt
          · rw [CopyCall.sources, hvalue, Option.elim_some, harray] at hmem
            rw [undisturbed_iff hself, hblock]
            exact survives_push_iff hscoped hthis hpush hmem hprints
          · obtain rfl := Option.some.inj (hj.symm.trans hthis)
            exact absurd rfl hne
      | none =>
          have hblock : CopyCall.changedBlock heap (.append this other) = none := harray
          cases hvalue : heap.nodes other with
          | none =>
              rw [CopyCall.sources, hvalue] at hmem
              cases hmem
          | some value =>
              rw [CopyCall.sources, hvalue, Option.elim_some, harray] at hmem
              obtain rfl := List.mem_singleton.mp hmem
              rw [survives_append_iff hscoped harray hrun hvalue hprints]
              refine and_congr_right fun _ => ⟨fun hcond => ⟨?_, hblock ▸ hcond.2⟩, fun hundisturbed => ?_⟩
              · intro this' heq _
                cases heq
                exact hcond.1 rfl
              · refine ⟨?_, hblock ▸ hundisturbed.clear⟩
                rintro rfl
                exact hundisturbed.self other rfl harray
  | grow this =>
      obtain ⟨j, hj, hrest⟩ := Option.bind_eq_some_iff.mp hrun
      split_ifs at hrest with htype
      obtain ⟨j', p, elements, capacity, hj', hvalue, -⟩ := pushBack_spares hscoped hrest
      obtain rfl := Option.some.inj (hj.symm.trans hj')
      have heq : j = ⟨.jsonArray, .mArray p⟩ := Json.ext htype hvalue
      have hthis := hj.trans (congrArg some heq)
      have hblock : CopyCall.changedBlock heap (.grow this) = some p := arrayBlock_eq_some.mpr hthis
      rw [undisturbed_iff (fun this heq => by cases heq), hblock]
      exact survives_push_iff hscoped hthis hrest hmem hprints
  | assign this other =>
      rw [undisturbed_iff fun this heq => by cases heq]
      exact survives_assign_iff hscoped hrun hmem hprints

/-- A copy of `Json(true)` where a `bool` was before. -/
theorem survives_true :
    Survives (trueHeap.newRoot ⟨.jsonBool, .mBool true⟩) (fun _ => []) 1 ⟨.jsonBool, .mBool true⟩
      "true".toList := by
  have hrun : (CopyCall.construct 0).run ⟨fun _ => .jsonBool, fun n => 2 * n⟩ trueHeap =
      some (trueHeap.newRoot ⟨.jsonBool, .mBool true⟩) := rfl
  have hmem : (1, ⟨.jsonBool, .mBool true⟩) ∈ (CopyCall.construct 0).sources trueHeap :=
    List.mem_singleton_self _
  refine (survives_iff _ (reachable_trueHeap _) hrun hmem ⟨1, rfl⟩).mpr ⟨rfl, ?_, ?_⟩
  · intro this heq
    cases heq
  · exact ⟨fun _ _ => Option.some_ne_none _, fun _ _ _ _ => Option.some_ne_none _⟩

/-- The copy of `Json(true)` that is constructed where an `int` was before is an `int`. -/
theorem not_survives_true :
    (system ⟨fun _ => .jsonInt, fun n => 2 * n⟩).Reachable trueHeap ∧
      (CopyCall.construct 0).run ⟨fun _ => .jsonInt, fun n => 2 * n⟩ trueHeap =
        some (trueHeap.newRoot ⟨.jsonInt, .mBool true⟩) ∧
      (1, ⟨.jsonBool, .mBool true⟩) ∈ (CopyCall.construct 0).sources trueHeap ∧
      Prints trueHeap (fun _ => []) ⟨.jsonBool, .mBool true⟩ "true".toList ∧
      ¬ Survives (trueHeap.newRoot ⟨.jsonInt, .mBool true⟩) (fun _ => []) 1 ⟨.jsonBool, .mBool true⟩
        "true".toList := by
  refine ⟨reachable_trueHeap _, rfl, List.mem_singleton_self _, ⟨1, rfl⟩, ?_⟩
  rintro ⟨copy, hnode, htype, -⟩
  obtain rfl := Option.some.inj hnode
  cases htype

end JsonHeap

end CppProjects
