import CppProjects.Json.JsonSurvival

/-!
# Who owns the payload of a `Json`

The copy constructor copies the pointer of a string, an array or a map, and `clear`
deletes what the pointer points to.  In a run in which nothing with a payload is copied
beside its original and no payload is left behind, each payload belongs to one value, and
a call leaves the other variables as they are.
-/

namespace CppProjects

variable {δ : Type}

namespace JsonHeap

open NodeHeap

/-- Each payload is pointed to by one node, whose tag stands for it, and no pointer
dangles. -/
structure Exclusive (heap : JsonHeap δ) : Prop where
  tagged : heap.Every fun j => ∀ p ∈ pointers j, j.block? = some p
  live : ∀ {addr p}, heap.Points addr p → (heap.blocks p).isSome
  unique : ∀ {addr addr' p}, heap.Points addr p → heap.Points addr' p → addr = addr'
  owned : ∀ {p}, (heap.blocks p).isSome → ∃ addr, heap.Points addr p

/-- The nodes in the block that belongs to a node. -/
def held (heap : JsonHeap δ) (addr : ℕ) : List ℕ :=
  (((heap.nodes addr).bind Json.block?).bind heap.blocks).elim [] JsonBlock.children

/-- The nodes that a call copies and leaves where they are. -/
def duplicated (heap : JsonHeap δ) : Action δ → List ℕ
  | .copyConstruct other => [other]
  | .assignJson this other => if this = other then [] else heap.held other
  | .push _ other => [other]
  | _ => []

/-- A call copies the pointer to a payload. -/
def Shares (heap : JsonHeap δ) (a : Action δ) : Prop :=
  ∃ addr ∈ heap.duplicated a, ∃ p, heap.Points addr p

def hasType (heap : JsonHeap δ) (addr : ℕ) (type : JsonType) : Prop :=
  (heap.nodes addr).map Json.mType = some type

instance (heap : JsonHeap δ) (addr : ℕ) (type : JsonType) : Decidable (heap.hasType addr type) :=
  inferInstanceAs (Decidable (_ = _))

/-- The nodes that a call removes or overwrites without deleting what they point to. -/
def abandoned (heap : JsonHeap δ) : Action δ → List ℕ
  | .assign this _ => heap.held this
  | .assignJson this other => if this = other then [] else heap.held this
  | .adopt this => if heap.hasType this .jsonArray then [] else [this]
  | .becomeArray this => if heap.hasType this .jsonArray then [] else heap.held this
  | .becomeObject this => if heap.hasType this .jsonObject then [] else heap.held this
  | _ => []

/-- A call leaves a payload without a pointer to it. -/
def Leaks (heap : JsonHeap δ) (a : Action δ) : Prop :=
  ∃ addr ∈ heap.abandoned a, ∃ p, heap.Points addr p

/-- The elements that `push_back` moves to new storage, with the places they get. -/
def relocated (heap : JsonHeap δ) : Action δ → List (ℕ × Json δ)
  | .push this _ | .pushNull this => heap.originals (heap.top + 1) (heap.crowded this)
  | _ => []

/-- `push_back` moves an element with a payload to where another tag was before. -/
def Misplaces (storage : Storage) (heap : JsonHeap δ) (a : Action δ) : Prop :=
  ∃ moved ∈ heap.relocated a, moved.2.mType.Boxed ∧ storage.stale moved.1 ≠ moved.2.mType

/-- A call does one of the three. -/
def Spoils (storage : Storage) (heap : JsonHeap δ) (a : Action δ) : Prop :=
  heap.Shares a ∨ heap.Leaks a ∨ Misplaces storage heap a

variable {heap heap' middle cleared : JsonHeap δ} {storage : Storage} {this other addr p q : ℕ}
  {j old value : Json δ} {block : JsonBlock}

/-! ## Edits that keep the payloads apart -/

theorem Exclusive.not_points_of_unboxed (hexclusive : heap.Exclusive)
    (hnode : heap.nodes addr = some j) (hunboxed : ¬ j.mType.Boxed) :
    ∀ p, ¬ heap.Points addr p := by
  rintro p ⟨j', hnode', hmem⟩
  obtain rfl := Option.some.inj (hnode.symm.trans hnode')
  exact hunboxed (block?_eq_some.mp (hexclusive.tagged addr j hnode p hmem)).1

theorem not_points_of_le (hscoped : heap.Scoped) (hle : heap.top ≤ addr) :
    ∀ p, ¬ heap.Points addr p := by
  rintro p ⟨j, hnode, -⟩
  exact absurd (hscoped.nodes_lt hnode) (Nat.not_lt.mpr hle)

theorem points_update (hnodes : heap'.nodes = Function.update heap.nodes addr (some value)) :
    heap'.Points this p ↔
      (this = addr ∧ p ∈ pointers value) ∨ (this ≠ addr ∧ heap.Points this p) := by
  rcases eq_or_ne this addr with rfl | hne
  · simp [Points, hnodes]
  · simp [Points, hnodes, hne]

theorem every_update {P : Json δ → Prop} (hevery : heap.Every P) (hvalue : P value)
    (hnodes : heap'.nodes = Function.update heap.nodes addr (some value)) : heap'.Every P := by
  have hset : Every (heap.setNode addr value) P := hevery.setNode hvalue
  intro this j hnode
  rw [hnodes] at hnode
  exact hset this j hnode

/-- A node without a pointer takes the place of another. -/
theorem Exclusive.update (hexclusive : heap.Exclusive) (hfree : ∀ p, ¬ heap.Points addr p)
    (hvalue : pointers value = [])
    (hnodes : heap'.nodes = Function.update heap.nodes addr (some value))
    (hblocks : ∀ p, (heap'.blocks p).isSome = (heap.blocks p).isSome) : heap'.Exclusive := by
  have hpoints : ∀ {this p}, heap'.Points this p ↔ heap.Points this p := by
    intro this p
    rw [points_update hnodes, hvalue]
    constructor
    · rintro (⟨-, hmem⟩ | ⟨-, hold⟩)
      · cases hmem
      · exact hold
    · intro hold
      exact .inr ⟨fun heq => hfree p (heq ▸ hold), hold⟩
  refine ⟨every_update hexclusive.tagged (fun p hmem => ?_) hnodes, fun h => ?_, fun h h' => ?_,
    fun h => ?_⟩
  · rw [hvalue] at hmem
    cases hmem
  · exact hblocks _ ▸ hexclusive.live (hpoints.mp h)
  · exact hexclusive.unique (hpoints.mp h) (hpoints.mp h')
  · obtain ⟨owner, howner⟩ := hexclusive.owned (hblocks _ ▸ h)
    exact ⟨owner, hpoints.mpr howner⟩

/-- A new block, and a node that points to it. -/
theorem Exclusive.install (hexclusive : heap.Exclusive) (hscoped : heap.Scoped)
    (hfree : ∀ p, ¬ heap.Points addr p) (hpointers : pointers value = [heap.top])
    (hblock : value.block? = some heap.top)
    (hnodes : heap'.nodes = Function.update heap.nodes addr (some value))
    (hblocks : heap'.blocks = Function.update heap.blocks heap.top (some block)) :
    heap'.Exclusive := by
  have hpoints : ∀ {this p}, heap'.Points this p ↔
      (this = addr ∧ p = heap.top) ∨ heap.Points this p := by
    intro this p
    rw [points_update hnodes, hpointers, List.mem_singleton]
    refine or_congr_right (and_iff_right_of_imp fun hold heq => hfree p (heq ▸ hold))
  have hold : ∀ {this p}, heap.Points this p → p ≠ heap.top := fun h => (hscoped.pointers_lt h).ne
  refine ⟨every_update hexclusive.tagged (fun p hmem => ?_) hnodes, fun h => ?_, fun h h' => ?_,
    fun {p} h => ?_⟩
  · rw [hpointers] at hmem
    rw [hblock, List.mem_singleton.mp hmem]
  · rw [hblocks]
    rcases hpoints.mp h with ⟨-, rfl⟩ | h
    · rw [Function.update_self]
      rfl
    · rw [Function.update_of_ne (hold h)]
      exact hexclusive.live h
  · rcases hpoints.mp h with ⟨rfl, rfl⟩ | h
    · rcases hpoints.mp h' with ⟨rfl, -⟩ | h'
      · rfl
      · exact absurd rfl (hold h')
    · rcases hpoints.mp h' with ⟨-, rfl⟩ | h'
      · exact absurd rfl (hold h)
      · exact hexclusive.unique h h'
  · rw [hblocks] at h
    by_cases htop : p = heap.top
    · exact ⟨addr, hpoints.mpr (.inl ⟨rfl, htop⟩)⟩
    · rw [Function.update_of_ne htop] at h
      obtain ⟨owner, howner⟩ := hexclusive.owned h
      exact ⟨owner, hpoints.mpr (.inr howner)⟩

theorem Exclusive.newNode (hexclusive : heap.Exclusive) (hscoped : heap.Scoped)
    (hvalue : pointers value = []) : Exclusive (heap.newNode value) :=
  hexclusive.update (not_points_of_le hscoped (Nat.le_refl _)) hvalue rfl fun _ => rfl

theorem Exclusive.newRoot (hexclusive : heap.Exclusive) (hscoped : heap.Scoped)
    (hvalue : pointers value = []) : Exclusive (heap.newRoot value) :=
  hexclusive.update (not_points_of_le hscoped (Nat.le_refl _)) hvalue rfl fun _ => rfl

theorem Exclusive.newNodes (hexclusive : heap.Exclusive) (hscoped : heap.Scoped)
    {values : List (Json δ)} (hvalues : ∀ value ∈ values, pointers value = []) :
    Exclusive (heap.newNodes values) := by
  induction values generalizing heap with
  | nil => exact hexclusive
  | cons value values ih =>
      have hvalue := hvalues value List.mem_cons_self
      apply ih (hexclusive.newNode hscoped hvalue) (hscoped.newNode fun p hmem => ?_)
      · exact fun other hmem => hvalues other (List.mem_cons_of_mem _ hmem)
      · rw [hvalue] at hmem
        cases hmem

theorem Exclusive.setNode (hexclusive : heap.Exclusive) (hfree : ∀ p, ¬ heap.Points addr p)
    (hvalue : pointers value = []) : Exclusive (heap.setNode addr value) :=
  hexclusive.update hfree hvalue rfl fun _ => rfl

/-- What is in a block does not matter. -/
theorem Exclusive.setBlock (hexclusive : heap.Exclusive) (hlive : (heap.blocks p).isSome) :
    Exclusive (heap.setBlock p block) := by
  have hblocks : ∀ q, ((heap.setBlock p block).blocks q).isSome = (heap.blocks q).isSome := by
    intro q
    by_cases heq : q = p
    · rw [heq, blocks_setBlock_self, hlive]
      rfl
    · rw [blocks_setBlock_of_ne heq]
  exact ⟨hexclusive.tagged, fun h => hblocks _ ▸ hexclusive.live h, hexclusive.unique,
    fun h => hexclusive.owned (hblocks _ ▸ h)⟩

/-- A payload is deleted if nothing in it has a payload of its own. -/
theorem Exclusive.drop (hexclusive : heap.Exclusive) (hnode : heap.nodes this = some j)
    (hpointer : j.mValue.pointer = some p)
    (hfree : ∀ addr ∈ children block, ∀ q, ¬ heap.Points addr q) :
    Exclusive ((heap.drop p block).setNode this .null) := by
  have hthis : heap.Points this p := ⟨j, hnode, Option.mem_toList.mpr hpointer⟩
  have hpoints : ∀ {addr q}, Points ((heap.drop p block).setNode this .null) addr q ↔
      addr ≠ this ∧ heap.Points addr q := by
    intro addr q
    constructor
    · intro h
      rcases points_setNode h with ⟨-, hmem⟩ | ⟨hne, h⟩
      · cases hmem
      · exact ⟨hne, (points_discard h).2⟩
    · rintro ⟨hne, j', hnode', hmem⟩
      have hkept : addr ∉ children block := fun hchild => hfree addr hchild q ⟨j', hnode', hmem⟩
      refine ⟨j', ?_, hmem⟩
      rw [nodes_setNode_of_ne hne]
      exact (nodes_discard_of_notMem hkept).trans hnode'
  have hblocks : ∀ {q}, (((heap.drop p block).setNode this .null).blocks q).isSome ↔
      q ≠ p ∧ (heap.blocks q).isSome := by
    intro q
    change ((heap.drop p block).blocks q).isSome ↔ _
    rcases eq_or_ne q p with rfl | hne
    · simp
    · rw [blocks_drop_of_ne hne]
      exact (and_iff_right hne).symm
  have hdropped : Every (heap.drop p block) fun j => ∀ p ∈ pointers j, j.block? = some p :=
    hexclusive.tagged.discard
  refine ⟨hdropped.setNode (by simp [pointers, Json.null, Payload.pointer]), fun h => ?_,
    fun h h' => ?_, fun {q} h => ?_⟩
  · obtain ⟨hne, hold⟩ := hpoints.mp h
    refine hblocks.mpr ⟨?_, hexclusive.live hold⟩
    rintro rfl
    exact hne (hexclusive.unique hold hthis)
  · exact hexclusive.unique (hpoints.mp h).2 (hpoints.mp h').2
  · obtain ⟨hne, hlive⟩ := hblocks.mp h
    obtain ⟨owner, howner⟩ := hexclusive.owned hlive
    refine ⟨owner, hpoints.mpr ⟨?_, howner⟩⟩
    rintro rfl
    obtain ⟨j', hnode', hmem⟩ := howner
    obtain rfl := Option.some.inj (hnode.symm.trans hnode')
    have hpointers : q ∈ j.mValue.pointer.toList := hmem
    rw [hpointer] at hpointers
    exact hne (List.mem_singleton.mp hpointers)

theorem held_eq (hnode : heap.nodes addr = some j) (hp : j.block? = some p)
    (hblock : heap.blocks p = some block) : heap.held addr = children block := by
  rw [held, hnode, Option.bind_some, hp, Option.bind_some, hblock]
  rfl

/-- A cleared node points to nothing. -/
theorem Exclusive.clear (hexclusive : heap.Exclusive) (hclear : heap.clear this = some cleared)
    (hfree : ∀ addr ∈ heap.held this, ∀ p, ¬ heap.Points addr p) :
    cleared.Exclusive ∧ ∀ p, ¬ cleared.Points this p := by
  obtain ⟨j, hnode, ⟨p, block, hboxed, hmember, hpointer, hblock, -, rfl⟩ | ⟨hunboxed, rfl⟩⟩ :=
    clear_cases hclear
  · have hheld := held_eq hnode (block?_eq_some.mpr ⟨hboxed, hmember, hpointer⟩) hblock
    refine ⟨hexclusive.drop hnode hpointer (hheld ▸ hfree), ?_⟩
    intro q h
    rcases points_setNode h with ⟨-, hmem⟩ | ⟨hne, -⟩
    · cases hmem
    · exact hne rfl
  · have hnone := hexclusive.not_points_of_unboxed hnode hunboxed
    have hvalue : pointers (⟨.jsonNull, j.mValue⟩ : Json δ) = [] :=
      List.eq_nil_iff_forall_not_mem.mpr fun p hmem => hnone p ⟨j, hnode, hmem⟩
    refine ⟨hexclusive.setNode hnone hvalue, ?_⟩
    intro q h
    rcases points_setNode h with ⟨-, hmem⟩ | ⟨hne, -⟩
    · rw [hvalue] at hmem
      cases hmem
    · exact hne rfl

theorem Exclusive.install_self (hexclusive : heap.Exclusive) (hscoped : heap.Scoped)
    (hfree : ∀ p, ¬ heap.Points this p) (hpointers : pointers value = [heap.top])
    (hblock : value.block? = some heap.top) :
    Exclusive ((heap.newBlock block).setNode this value) :=
  hexclusive.install hscoped hfree hpointers hblock rfl rfl

theorem Exclusive.install_root (hexclusive : heap.Exclusive) (hscoped : heap.Scoped)
    (hpointers : pointers value = [heap.top]) (hblock : value.block? = some heap.top) :
    Exclusive ((heap.newBlock block).newRoot value) :=
  hexclusive.install hscoped (not_points_of_le hscoped (Nat.le_succ _)) hpointers hblock rfl rfl

/-- A cleared node gets a new block. -/
theorem Exclusive.clear_install (hexclusive : heap.Exclusive) (hscoped : heap.Scoped)
    (hclear : heap.clear this = some cleared)
    (hfree : ∀ addr ∈ heap.held this, ∀ p, ¬ heap.Points addr p)
    (hpointers : pointers value = [cleared.top]) (hblock : value.block? = some cleared.top) :
    Exclusive ((cleared.newBlock block).setNode this value) := by
  obtain ⟨hkept, hnone⟩ := hexclusive.clear hclear hfree
  exact hkept.install_self (Scoped.clear hscoped hclear) hnone hpointers hblock

/-! ## Calls that keep the payloads apart -/

theorem Exclusive.ofScalar (hexclusive : heap.Exclusive) (hscoped : heap.Scoped)
    (value : Scalar δ) : (heap.ofScalar value).Exclusive := by
  cases value with
  | string text => exact hexclusive.install_root hscoped rfl rfl
  | _ => exact hexclusive.newRoot hscoped rfl

theorem Exclusive.ofType [Zero δ] (hexclusive : heap.Exclusive) (hscoped : heap.Scoped)
    (type : JsonType) : (heap.ofType type).Exclusive := by
  cases type with
  | jsonString | jsonArray | jsonObject => exact hexclusive.install_root hscoped rfl rfl
  | _ => exact hexclusive.newRoot hscoped rfl

theorem Exclusive.assign (hexclusive : heap.Exclusive) (hscoped : heap.Scoped) {value : Scalar δ}
    (hassign : heap.assign this value = some heap')
    (hfree : ∀ addr ∈ heap.held this, ∀ p, ¬ heap.Points addr p) : heap'.Exclusive := by
  have hvalue : ∀ {value : Json δ}, ¬ value.mType.Boxed → pointers value = [] →
      heap.assignValue this value = some heap' → heap'.Exclusive := by
    intro value hunboxed hnil hassign
    obtain ⟨cleared, hclear, -, rfl⟩ := assignValue_eq_some hassign
    obtain ⟨j, hnode, ⟨htype, rfl⟩ | ⟨-, hcleared⟩⟩ := clearUnless_cases hclear
    · exact hexclusive.setNode (hexclusive.not_points_of_unboxed hnode (htype ▸ hunboxed)) hnil
    · obtain ⟨hkept, hnone⟩ := hexclusive.clear hcleared hfree
      exact hkept.setNode hnone hnil
  cases value with
  | bool value => exact hvalue (show ¬ JsonType.jsonBool.Boxed by decide) rfl hassign
  | int value => exact hvalue (show ¬ JsonType.jsonInt.Boxed by decide) rfl hassign
  | double value => exact hvalue (show ¬ JsonType.jsonDouble.Boxed by decide) rfl hassign
  | string text =>
      obtain ⟨j, hnode, ⟨p, old, -, hp, hblock, rfl⟩ | ⟨cleared, -, hclear, -, rfl⟩⟩ :=
        assign_string_cases hassign
      · exact hexclusive.setBlock (Option.isSome_of_eq_some hblock)
      · exact hexclusive.clear_install hscoped hclear hfree rfl rfl

/-- The copy of a value without a payload has none. -/
theorem pointers_copied_eq_nil {stale : JsonType} {source copy : Json δ}
    (hcopied : source.copied stale = some copy) (hsource : pointers source = []) :
    pointers copy = [] := by
  apply List.eq_nil_iff_forall_not_mem.mpr
  intro p hmem
  have hold := Json.pointers_copied hcopied hmem
  rw [hsource] at hold
  cases hold

theorem pointers_eq_nil (hnode : heap.nodes addr = some j) (hfree : ∀ p, ¬ heap.Points addr p) :
    pointers j = [] :=
  List.eq_nil_iff_forall_not_mem.mpr fun p hmem => hfree p ⟨j, hnode, hmem⟩

theorem Exclusive.copyConstruct (hexclusive : heap.Exclusive) (hscoped : heap.Scoped)
    (hcopy : heap.copyConstruct storage other = some heap') (hfree : ∀ p, ¬ heap.Points other p) :
    heap'.Exclusive := by
  obtain ⟨source, hsource, hrest⟩ := Option.bind_eq_some_iff.mp hcopy
  obtain ⟨copy, hcopied, hroot⟩ := Option.bind_eq_some_iff.mp hrest
  obtain rfl := Option.some.inj hroot
  exact hexclusive.newRoot hscoped (pointers_copied_eq_nil hcopied (pointers_eq_nil hsource hfree))

theorem CopiesOf.pointers_eq_nil {start : ℕ} {addrs : List ℕ} {copies : List (Json δ)}
    (hcopies : CopiesOf storage heap start addrs copies)
    (hfree : ∀ addr ∈ addrs, ∀ p, ¬ heap.Points addr p) : ∀ copy ∈ copies, pointers copy = [] := by
  intro copy hmem
  obtain ⟨i, hi⟩ := List.mem_iff_getElem?.mp hmem
  obtain ⟨source, horiginal, hcopied⟩ := hcopies.exists_original hi
  obtain ⟨k, addr, hget, hsource, -⟩ := mem_originals.mp horiginal
  have hnone := hfree addr (List.mem_of_getElem? hget)
  exact pointers_copied_eq_nil hcopied (JsonHeap.pointers_eq_nil hsource hnone)

theorem Replica.block?_eq {source : Json δ} {block' : JsonBlock} {copies : List ℕ}
    (hreplica : Replica source p block copies block' q value) :
    source.block? = some p ∧ value.block? = some q := by
  cases hreplica <;> exact ⟨rfl, rfl⟩

theorem Exclusive.assignJson (hexclusive : heap.Exclusive) (hscoped : heap.Scoped)
    (hassign : heap.assignJson storage this other = some heap')
    (hshared : ¬ heap.Shares (.assignJson this other))
    (hleaks : ¬ heap.Leaks (.assignJson this other)) : heap'.Exclusive := by
  rcases assignJson_cases hassign with ⟨-, rfl⟩ | ⟨ready, source, hsame, hprepared, hsource, hcases⟩
  · exact hexclusive
  obtain ⟨cleared, old, source', hclear, hold, hsource', rfl⟩ := prepared_eq_some hprepared
  have hheld : ∀ addr ∈ heap.held this, ∀ p, ¬ heap.Points addr p := by
    intro addr hmem p hpoints
    exact hleaks ⟨addr, by simpa [abandoned, hsame] using hmem, p, hpoints⟩
  obtain ⟨hkept, hnone⟩ := hexclusive.clear hclear hheld
  have hcleared := Scoped.clear hscoped hclear
  have hold' : pointers (⟨source'.mType, old.mValue⟩ : Json δ) = [] :=
    pointers_eq_nil (j := old) hold hnone
  have hready := hkept.setNode hnone hold'
  have hscoped' := Scoped.prepared hscoped hprepared
  have hfree : ∀ p, ¬ Points (cleared.setNode this ⟨source'.mType, old.mValue⟩) this p := by
    intro p h
    rcases points_setNode h with ⟨-, hmem⟩ | ⟨hne, -⟩
    · rw [hold'] at hmem
      cases hmem
    · exact hne rfl
  rcases hcases with ⟨-, rfl⟩ | ⟨hunboxed, -, rfl⟩ | ⟨p, text, -, -, rfl⟩ |
    ⟨p, block, block', copied, value, hblock, hcopied, hreplica, rfl⟩
  · exact hready
  · have hnone' := hready.not_points_of_unboxed hsource hunboxed
    exact hready.setNode hfree (pointers_eq_nil hsource hnone')
  · exact hready.install_self hscoped' hfree rfl rfl
  · obtain ⟨hp, hq⟩ := hreplica.block?_eq
    have hother := nodes_of_clear hclear hsame.symm
      ((nodes_setNode_of_ne hsame.symm).symm.trans hsource)
    have hheld' := held_eq hother hp (blocks_of_clear hclear hblock)
    have helements : ∀ addr ∈ children block,
        ∀ q, ¬ Points (cleared.setNode this ⟨source'.mType, old.mValue⟩) addr q := by
      intro addr hmem q h
      rcases points_setNode h with ⟨rfl, hmem'⟩ | ⟨hne, j, hnode, hmem'⟩
      · rw [hold'] at hmem'
        cases hmem'
      · refine hshared ⟨addr, ?_, q, j, nodes_of_clear hclear hne hnode, hmem'⟩
        rw [duplicated, if_neg hsame, hheld']
        exact hmem
    obtain ⟨copies, hcopies, rfl⟩ := copyAll_eq_some hcopied (Scoped.children_lt hscoped' hblock)
    have hnew := hready.newNodes hscoped' (hcopies.pointers_eq_nil helements)
    refine hnew.install_self (hscoped'.newNodes (hcopies.pointers_lt hscoped')) ?_
      (pointers_replica hreplica) hq
    rintro x ⟨j, hnode, hmem⟩
    obtain ⟨node, hlive⟩ := Option.isSome_iff_exists.mp (isSome_of_clear hclear)
    have hlt : this < (cleared.setNode this ⟨source'.mType, old.mValue⟩).top :=
      hcleared.nodes_lt hlive
    rw [nodes_newNodes_of_lt hlt] at hnode
    exact hfree x ⟨j, hnode, hmem⟩

theorem Exclusive.adopt (hexclusive : heap.Exclusive) (hscoped : heap.Scoped)
    (hadopt : heap.adopt this = some heap') (hleaks : ¬ heap.Leaks (.adopt this)) :
    heap'.Exclusive := by
  obtain ⟨j, hnode, ⟨-, rfl⟩ | ⟨htype, rfl⟩⟩ := adopt_cases hadopt
  · exact hexclusive
  · refine hexclusive.install_self hscoped (fun p hpoints => hleaks ⟨this, ?_, p, hpoints⟩) rfl rfl
    simp [abandoned, hasType, hnode, htype]

theorem Exclusive.becomeArray (hexclusive : heap.Exclusive) (hscoped : heap.Scoped)
    (hbecome : heap.becomeArray this = some heap') (hleaks : ¬ heap.Leaks (.becomeArray this)) :
    heap'.Exclusive := by
  obtain ⟨j, hnode, ⟨-, rfl⟩ | ⟨cleared, htype, hclear, rfl⟩⟩ := becomeArray_cases hbecome
  · exact hexclusive
  · refine hexclusive.clear_install hscoped hclear (fun addr hmem p hpoints => ?_) rfl rfl
    exact hleaks ⟨addr, by simpa [abandoned, hasType, hnode, htype] using hmem, p, hpoints⟩

theorem Exclusive.becomeObject (hexclusive : heap.Exclusive) (hscoped : heap.Scoped)
    (hbecome : heap.becomeObject this = some heap') (hleaks : ¬ heap.Leaks (.becomeObject this)) :
    heap'.Exclusive := by
  obtain ⟨j, hnode, ⟨-, rfl⟩ | ⟨cleared, htype, hclear, rfl⟩⟩ := becomeObject_cases hbecome
  · exact hexclusive
  · refine hexclusive.clear_install hscoped hclear (fun addr hmem p hpoints => ?_) rfl rfl
    exact hleaks ⟨addr, by simpa [abandoned, hasType, hnode, htype] using hmem, p, hpoints⟩

theorem Exclusive.entry (hexclusive : heap.Exclusive) (hscoped : heap.Scoped) {key : List Char}
    (hentry : heap.entry this key = some (heap', addr)) : heap'.Exclusive := by
  obtain ⟨j, p, entries, -, -, hblock, ⟨-, rfl⟩ | ⟨-, -, rfl⟩⟩ := entry_cases hentry
  · exact hexclusive
  · exact (hexclusive.newNode hscoped rfl).setBlock (Option.isSome_of_eq_some hblock)

section Relocation

variable {addrs : List ℕ} {copies : List (Json δ)}

/-- Where the pointers are when the nodes at `addrs` have moved to new places. -/
theorem points_relocated (hscoped : heap.Scoped) (hlt : ∀ addr ∈ addrs, addr < heap.top)
    (hlength : copies.length = addrs.length)
    (hcopies : ∀ (i addr : ℕ) (copy : Json δ), addrs[i]? = some addr → copies[i]? = some copy →
      ∃ source, heap.nodes addr = some source ∧ pointers copy = pointers source) :
    Points ((heap.newNodes copies).discard addrs) this p ↔
      (∃ i addr, this = heap.top + i ∧ addrs[i]? = some addr ∧ heap.Points addr p) ∨
        (this ∉ addrs ∧ heap.Points this p) := by
  constructor
  · rintro ⟨node, hnode, hmem⟩
    obtain ⟨hkept, hnode⟩ := nodes_of_discard hnode
    rcases nodes_of_newNodes hnode with ⟨i, rfl, hget⟩ | ⟨-, hold⟩
    · have hi : i < addrs.length := hlength ▸ (List.getElem?_eq_some_iff.mp hget).1
      obtain ⟨source, hsource, hsame⟩ := hcopies i addrs[i] node (List.getElem?_eq_getElem hi) hget
      exact .inl ⟨i, addrs[i], rfl, List.getElem?_eq_getElem hi, source, hsource, hsame ▸ hmem⟩
    · exact .inr ⟨hkept, node, hold, hmem⟩
  · rintro (⟨i, addr, rfl, hget, source, hsource, hmem⟩ | ⟨hkept, node, hnode, hmem⟩)
    · have hi : i < copies.length := hlength ▸ (List.getElem?_eq_some_iff.mp hget).1
      obtain ⟨source', hsource', hsame⟩ :=
        hcopies i addr copies[i] hget (List.getElem?_eq_getElem hi)
      obtain rfl := Option.some.inj (hsource.symm.trans hsource')
      refine ⟨copies[i], ?_, hsame ▸ hmem⟩
      rw [nodes_discard_of_notMem fun h => absurd (hlt _ h) (Nat.not_lt.mpr (Nat.le_add_right _ _)),
        nodes_newNodes_add hi]
      exact List.getElem?_eq_getElem hi
    · refine ⟨node, ?_, hmem⟩
      rw [nodes_discard_of_notMem hkept, nodes_newNodes_of_lt (hscoped.nodes_lt hnode)]
      exact hnode

/-- Nodes move with their pointers. -/
theorem Exclusive.relocate (hexclusive : heap.Exclusive) (hscoped : heap.Scoped)
    (hlt : ∀ addr ∈ addrs, addr < heap.top) (hnodup : addrs.Nodup)
    (hlength : copies.length = addrs.length)
    (hcopies : ∀ (i addr : ℕ) (copy : Json δ), addrs[i]? = some addr → copies[i]? = some copy →
      ∃ source, heap.nodes addr = some source ∧ pointers copy = pointers source)
    (htagged : ∀ copy ∈ copies, ∀ p ∈ pointers copy, copy.block? = some p) :
    Exclusive ((heap.newNodes copies).discard addrs) := by
  have hpoints : ∀ {this p}, Points ((heap.newNodes copies).discard addrs) this p ↔
      (∃ i addr, this = heap.top + i ∧ addrs[i]? = some addr ∧ heap.Points addr p) ∨
        (this ∉ addrs ∧ heap.Points this p) := points_relocated hscoped hlt hlength hcopies
  have hblocks : ((heap.newNodes copies).discard addrs).blocks = heap.blocks := blocks_newNodes
  refine ⟨(hexclusive.tagged.newNodes htagged).discard, fun h => ?_, fun h h' => ?_, fun h => ?_⟩
  · rw [hblocks]
    rcases hpoints.mp h with ⟨i, addr, -, -, hold⟩ | ⟨-, hold⟩
    · exact hexclusive.live hold
    · exact hexclusive.live hold
  · rcases hpoints.mp h with ⟨i, addr, rfl, hget, hold⟩ | ⟨hkept, hold⟩
    · rcases hpoints.mp h' with ⟨i', addr', rfl, hget', hold'⟩ | ⟨hkept', hold'⟩
      · obtain rfl := hexclusive.unique hold hold'
        have hi := (List.getElem?_eq_some_iff.mp hget).1
        rw [(List.getElem?_inj hi hnodup).mp (hget.trans hget'.symm)]
      · exact absurd (hexclusive.unique hold hold' ▸ List.mem_of_getElem? hget) hkept'
    · rcases hpoints.mp h' with ⟨i', addr', rfl, hget', hold'⟩ | ⟨hkept', hold'⟩
      · exact absurd (hexclusive.unique hold hold' ▸ List.mem_of_getElem? hget') hkept
      · exact hexclusive.unique hold hold'
  · rw [hblocks] at h
    obtain ⟨owner, howner⟩ := hexclusive.owned h
    by_cases hmem : owner ∈ addrs
    · obtain ⟨i, hi⟩ := List.mem_iff_getElem?.mp hmem
      exact ⟨heap.top + i, hpoints.mpr (.inl ⟨i, owner, rfl, hi, howner⟩)⟩
    · exact ⟨owner, hpoints.mpr (.inr ⟨hmem, howner⟩)⟩

end Relocation

/-- A payload moves to where its tag was before. -/
theorem copied_of_fits {stale : JsonType} {source copy : Json δ}
    (hcopied : source.copied stale = some copy)
    (htagged : ∀ p ∈ pointers source, source.block? = some p)
    (hfits : source.mType.Boxed → stale = source.mType) :
    pointers copy = pointers source ∧ ∀ p ∈ pointers copy, copy.block? = some p := by
  obtain ⟨htype, hcases⟩ := Json.copied_eq_some hcopied
  by_cases hboxed : source.mType.Boxed
  · rcases hcases with ⟨hnone, -⟩ | ⟨-, -, -, hvalue⟩
    · exact absurd hboxed (JsonType.not_boxed_of_member hnone)
    · obtain rfl : copy = source := Json.ext (htype.trans (hfits hboxed)) hvalue
      exact ⟨rfl, htagged⟩
  · have hnil : pointers source = [] := List.eq_nil_iff_forall_not_mem.mpr fun p hmem =>
      hboxed (block?_eq_some.mp (htagged p hmem)).1
    have hnil' := pointers_copied_eq_nil hcopied hnil
    rw [hnil, hnil']
    exact ⟨rfl, fun p hmem => absurd hmem List.not_mem_nil⟩

theorem Exclusive.pushBack (hexclusive : heap.Exclusive) (hscoped : heap.Scoped)
    (hvalue : pointers value = []) (hpush : heap.pushBack storage this value = some heap')
    (hplaced : ∀ moved ∈ heap.originals (heap.top + 1) (heap.crowded this),
      moved.2.mType.Boxed → storage.stale moved.1 = moved.2.mType) : heap'.Exclusive := by
  obtain ⟨j, p, elements, capacity, copy, hnode, hmember, hblock, hcopied, hcases⟩ :=
    pushBack_cases hpush
  have hnil := pointers_copied_eq_nil hcopied hvalue
  have hpushed := hexclusive.newNode hscoped hnil
  rcases hcases with ⟨-, rfl⟩ | ⟨moved, capacity', hfull, hmoved, rfl⟩
  · exact hpushed.setBlock (Option.isSome_of_eq_some hblock)
  · have hlt := Scoped.children_lt hscoped hblock
    have hscoped' : (heap.newNode copy).Scoped :=
      hscoped.newNode fun q hmem => by simp [hnil] at hmem
    have hbound : ∀ addr ∈ elements, addr < (heap.newNode copy).top := fun addr hmem =>
      Nat.lt_succ_of_lt (hlt addr hmem)
    obtain ⟨copies, hcopies, rfl⟩ := copyAll_eq_some hmoved hbound
    rw [crowded_eq hnode hmember hblock, if_neg (Nat.not_lt.mpr hfull)] at hplaced
    have hfits : ∀ (i addr : ℕ) (made : Json δ), elements[i]? = some addr → copies[i]? = some made →
        ∃ source, (heap.newNode copy).nodes addr = some source ∧ pointers made = pointers source ∧
          ∀ p ∈ pointers made, made.block? = some p := by
      intro i addr made haddr hmade
      obtain ⟨source, hsource, hcopied'⟩ := hcopies.2 i addr made haddr hmade
      have hold : heap.nodes addr = some source :=
        (nodes_newNode_of_ne (hlt addr (List.mem_of_getElem? haddr)).ne).symm.trans hsource
      have horiginal : (heap.top + 1 + i, source) ∈ heap.originals (heap.top + 1) elements :=
        mem_originals.mpr ⟨i, addr, haddr, hold, rfl⟩
      exact ⟨source, hsource, copied_of_fits hcopied' (hexclusive.tagged addr source hold)
        (hplaced _ horiginal)⟩
    refine (hpushed.relocate hscoped' hbound (hscoped.nodup hblock) hcopies.1 ?_ ?_).setBlock ?_
    · intro i addr made haddr hmade
      obtain ⟨source, hsource, hsame, -⟩ := hfits i addr made haddr hmade
      exact ⟨source, hsource, hsame⟩
    · intro made hmem
      obtain ⟨i, hi⟩ := List.mem_iff_getElem?.mp hmem
      have hlength : i < elements.length := hcopies.1 ▸ (List.getElem?_eq_some_iff.mp hi).1
      obtain ⟨-, -, -, htagged⟩ := hfits i elements[i] made (List.getElem?_eq_getElem hlength) hi
      exact htagged
    · change (((heap.newNode copy).newNodes copies).blocks p).isSome
      rw [blocks_newNodes]
      exact Option.isSome_of_eq_some hblock

/-- A call keeps the payloads apart unless it shares, leaks or misplaces one. -/
theorem Exclusive.step [Zero δ] {a : Action δ} (hexclusive : heap.Exclusive) (hscoped : heap.Scoped)
    (hstep : step storage heap a = some heap') (hkept : ¬ Spoils storage heap a) :
    heap'.Exclusive := by
  have hshared : ¬ heap.Shares a := fun h => hkept (.inl h)
  have hleaks : ¬ heap.Leaks a := fun h => hkept (.inr (.inl h))
  have hfits : ∀ moved ∈ heap.relocated a, moved.2.mType.Boxed →
      storage.stale moved.1 = moved.2.mType := by
    intro moved hmem hboxed
    by_contra hne
    exact hkept (.inr (.inr ⟨moved, hmem, hboxed, hne⟩))
  cases a with
  | construct type =>
      obtain rfl := Option.some.inj hstep
      exact hexclusive.ofType hscoped type
  | constructFrom value =>
      obtain rfl := Option.some.inj hstep
      exact hexclusive.ofScalar hscoped value
  | copyConstruct other =>
      refine hexclusive.copyConstruct hscoped hstep fun p hpoints => ?_
      exact hshared ⟨other, List.mem_singleton_self other, p, hpoints⟩
  | assign this value =>
      refine hexclusive.assign hscoped hstep fun addr hmem p hpoints => ?_
      exact hleaks ⟨addr, hmem, p, hpoints⟩
  | assignJson this other => exact hexclusive.assignJson hscoped hstep hshared hleaks
  | adopt this => exact hexclusive.adopt hscoped hstep hleaks
  | push this other =>
      obtain ⟨value, hvalue, hpush⟩ := Option.bind_eq_some_iff.mp hstep
      refine hexclusive.pushBack hscoped (pointers_eq_nil hvalue fun p hpoints => ?_) hpush hfits
      exact hshared ⟨other, List.mem_singleton_self other, p, hpoints⟩
  | becomeArray this => exact hexclusive.becomeArray hscoped hstep hleaks
  | pushNull this => exact hexclusive.pushBack hscoped rfl hstep hfits
  | becomeObject this => exact hexclusive.becomeObject hscoped hstep hleaks
  | entry this key =>
      obtain ⟨⟨after, addr⟩, hentry, rfl⟩ := Option.map_eq_some_iff.mp hstep
      exact hexclusive.entry hscoped hentry
  | observe this observer =>
      obtain ⟨-, -, hsame⟩ := Option.bind_eq_some_iff.mp hstep
      exact Option.some.inj hsame ▸ hexclusive

/-! ## What a call leaves alone -/

/-- Nothing changes but a node and the containers it points to. -/
structure Confined (heap heap' : JsonHeap δ) (this : ℕ) : Prop where
  top_le : heap.top ≤ heap'.top
  blocks : ∀ {p block}, heap.blocks p = some block → ¬ heap.Points this p →
    heap'.blocks p = some block
  nodes : ∀ {addr j}, heap.nodes addr = some j → addr ≠ this →
    (∀ p, heap.Points this p → ¬ heap.Contains p addr) → heap'.nodes addr = some j

theorem Confined.refl : Confined heap heap this := ⟨Nat.le_refl _, fun h _ => h, fun h _ _ => h⟩

theorem Confined.setNode (hconfined : Confined heap middle this) :
    Confined heap (middle.setNode this value) this where
  top_le := hconfined.top_le
  blocks := hconfined.blocks
  nodes := fun hnode hne hapart =>
    (nodes_setNode_of_ne hne).trans (hconfined.nodes hnode hne hapart)

theorem Confined.newNode (hconfined : Confined heap middle this) (hscoped : heap.Scoped) :
    Confined heap (middle.newNode value) this where
  top_le := Nat.le_succ_of_le hconfined.top_le
  blocks := hconfined.blocks
  nodes := by
    intro addr j hnode hne hapart
    have hlt := (hscoped.nodes_lt hnode).trans_le hconfined.top_le
    exact (nodes_newNode_of_ne hlt.ne).trans (hconfined.nodes hnode hne hapart)

theorem Confined.newNodes (hconfined : Confined heap middle this) (hscoped : heap.Scoped)
    {values : List (Json δ)} : Confined heap (middle.newNodes values) this := by
  induction values generalizing middle with
  | nil => exact hconfined
  | cons value values ih => exact ih (hconfined.newNode hscoped)

theorem Confined.newBlock (hconfined : Confined heap middle this) (hscoped : heap.Scoped) :
    Confined heap (middle.newBlock block) this where
  top_le := Nat.le_succ_of_le hconfined.top_le
  blocks := by
    intro p block' hblock hapart
    have hlt := (hscoped.blocks_lt hblock).trans_le hconfined.top_le
    exact (blocks_newBlock_of_ne hlt.ne).trans (hconfined.blocks hblock hapart)
  nodes := hconfined.nodes

theorem Confined.setBlock (hconfined : Confined heap middle this) (hpoints : heap.Points this p) :
    Confined heap (middle.setBlock p block) this where
  top_le := hconfined.top_le
  blocks := by
    intro q block' hblock hapart
    have hne : q ≠ p := fun heq => hapart (heq ▸ hpoints)
    exact (blocks_setBlock_of_ne hne).trans (hconfined.blocks hblock hapart)
  nodes := hconfined.nodes

theorem Confined.discard (hconfined : Confined heap middle this) (hpoints : heap.Points this p)
    {addrs : List ℕ} (hcontains : ∀ addr ∈ addrs, heap.Contains p addr) :
    Confined heap (middle.discard addrs) this where
  top_le := hconfined.top_le
  blocks := hconfined.blocks
  nodes := by
    intro addr j hnode hne hapart
    have hkept : addr ∉ addrs := fun hmem => hapart p hpoints (hcontains addr hmem)
    exact (nodes_discard_of_notMem hkept).trans (hconfined.nodes hnode hne hapart)

theorem Confined.clear (hclear : heap.clear this = some cleared) : Confined heap cleared this := by
  obtain ⟨j, hnode, ⟨p, block, -, -, hpointer, hblock, -, rfl⟩ | ⟨-, rfl⟩⟩ := clear_cases hclear
  · have hpoints : heap.Points this p := ⟨j, hnode, Option.mem_toList.mpr hpointer⟩
    have hdiscard : Confined heap (heap.discard (children block)) this :=
      Confined.refl.discard hpoints fun addr hmem => ⟨block, hblock, hmem⟩
    have hdrop : Confined heap (heap.drop p block) this := by
      refine ⟨hdiscard.top_le, fun {q _} hblock' hapart => ?_, hdiscard.nodes⟩
      have hne : q ≠ p := fun heq => hapart (heq ▸ hpoints)
      exact (blocks_drop_of_ne hne).trans hblock'
    exact hdrop.setNode
  · exact Confined.refl.setNode

theorem Confined.assign (hscoped : heap.Scoped) {value : Scalar δ}
    (hassign : heap.assign this value = some heap') : Confined heap heap' this := by
  have hvalue : ∀ {value : Json δ}, heap.assignValue this value = some heap' →
      Confined heap heap' this := by
    intro value hassign
    obtain ⟨cleared, hclear, -, rfl⟩ := assignValue_eq_some hassign
    obtain ⟨j, -, ⟨-, rfl⟩ | ⟨-, hcleared⟩⟩ := clearUnless_cases hclear
    · exact Confined.refl.setNode
    · exact (Confined.clear hcleared).setNode
  cases value with
  | bool value => exact hvalue hassign
  | int value => exact hvalue hassign
  | double value => exact hvalue hassign
  | string text =>
      obtain ⟨j, hnode, ⟨p, old, -, hp, -, rfl⟩ | ⟨cleared, -, hclear, -, rfl⟩⟩ :=
        assign_string_cases hassign
      · have hpoints : heap.Points this p := ⟨j, hnode, by simp [pointers, hp, Payload.pointer]⟩
        exact Confined.refl.setBlock hpoints
      · exact ((Confined.clear hclear).newBlock hscoped).setNode

theorem Confined.assignJson (hscoped : heap.Scoped)
    (hassign : heap.assignJson storage this other = some heap') : Confined heap heap' this := by
  rcases assignJson_cases hassign with ⟨-, rfl⟩ | ⟨ready, source, -, hprepared, -, hcases⟩
  · exact .refl
  have hready : Confined heap ready this := by
    obtain ⟨cleared, old, source', hclear, -, -, rfl⟩ := prepared_eq_some hprepared
    exact (Confined.clear hclear).setNode
  rcases hcases with ⟨-, rfl⟩ | ⟨-, -, rfl⟩ | ⟨p, text, -, -, rfl⟩ |
    ⟨p, block, block', copied, value, hblock, hcopied, -, rfl⟩
  · exact hready
  · exact hready.setNode
  · exact (hready.newBlock hscoped).setNode
  · obtain ⟨copies, -, rfl⟩ := copyAll_eq_some hcopied
      (Scoped.children_lt (Scoped.prepared hscoped hprepared) hblock)
    exact ((hready.newNodes hscoped).newBlock hscoped).setNode

theorem Confined.pushBack (hscoped : heap.Scoped)
    (hpush : heap.pushBack storage this value = some heap') : Confined heap heap' this := by
  obtain ⟨j, p, elements, capacity, copy, hnode, hp, hblock, -, hcases⟩ := pushBack_cases hpush
  have hpoints : heap.Points this p := ⟨j, hnode, by simp [pointers, hp, Payload.pointer]⟩
  have hpushed : Confined heap (heap.newNode copy) this := Confined.refl.newNode hscoped
  rcases hcases with ⟨-, rfl⟩ | ⟨moved, capacity', -, hmoved, rfl⟩
  · exact hpushed.setBlock hpoints
  · obtain ⟨copies, -, rfl⟩ := copyAll_eq_some hmoved fun addr hmem =>
      Nat.lt_succ_of_lt (Scoped.children_lt hscoped hblock addr hmem)
    exact ((hpushed.newNodes hscoped).discard hpoints fun addr hmem => ⟨_, hblock, hmem⟩).setBlock
      hpoints

/-- The node that a call works on. -/
def Action.target : Action δ → Option ℕ
  | .assign this _ | .assignJson this _ | .adopt this | .push this _ | .becomeArray this
  | .pushNull this | .becomeObject this | .entry this _ => some this
  | _ => none

theorem Confined.step [Zero δ] {a : Action δ} (hscoped : heap.Scoped)
    (hstep : step storage heap a = some heap') (htarget : a.target = some this) :
    Confined heap heap' this := by
  cases a with
  | construct _ | constructFrom _ | copyConstruct _ | observe _ _ => cases htarget
  | assign this value =>
      obtain rfl := Option.some.inj htarget
      exact .assign hscoped hstep
  | assignJson this other =>
      obtain rfl := Option.some.inj htarget
      exact .assignJson hscoped hstep
  | adopt this =>
      obtain rfl := Option.some.inj htarget
      obtain ⟨j, -, ⟨-, rfl⟩ | ⟨-, rfl⟩⟩ := adopt_cases hstep
      · exact .refl
      · exact (Confined.refl.newBlock hscoped).setNode
  | push this other =>
      obtain rfl := Option.some.inj htarget
      obtain ⟨value, -, hpush⟩ := Option.bind_eq_some_iff.mp hstep
      exact .pushBack hscoped hpush
  | becomeArray this =>
      obtain rfl := Option.some.inj htarget
      obtain ⟨j, -, ⟨-, rfl⟩ | ⟨cleared, -, hclear, rfl⟩⟩ := becomeArray_cases hstep
      · exact .refl
      · exact ((Confined.clear hclear).newBlock hscoped).setNode
  | pushNull this =>
      obtain rfl := Option.some.inj htarget
      exact .pushBack hscoped hstep
  | becomeObject this =>
      obtain rfl := Option.some.inj htarget
      obtain ⟨j, -, ⟨-, rfl⟩ | ⟨cleared, -, hclear, rfl⟩⟩ := becomeObject_cases hstep
      · exact .refl
      · exact ((Confined.clear hclear).newBlock hscoped).setNode
  | entry this key =>
      obtain rfl := Option.some.inj htarget
      obtain ⟨⟨after, addr⟩, hentry, rfl⟩ := Option.map_eq_some_iff.mp hstep
      obtain ⟨j, p, entries, hnode, hp, -, ⟨-, rfl⟩ | ⟨-, -, rfl⟩⟩ := entry_cases hentry
      · exact .refl
      · have hpoints : heap.Points this p := ⟨j, hnode, by simp [pointers, hp, Payload.pointer]⟩
        exact (Confined.refl.newNode hscoped).setBlock hpoints

/-! ## Variables -/

/-- The node at an address is a variable or lies within it. -/
def LiesIn (heap : JsonHeap δ) (root addr : ℕ) : Prop :=
  addr = root ∨ ∃ j, heap.nodes root = some j ∧ heap.Below j addr

section LiesIn

variable {root root' : ℕ}

theorem Exclusive.parent_unique (hexclusive : heap.Exclusive) (hscoped : heap.Scoped) {x x' : ℕ}
    (hpoints : heap.Points x p) (hcontains : heap.Contains p addr) (hpoints' : heap.Points x' q)
    (hcontains' : heap.Contains q addr) : x = x' := by
  obtain rfl := hscoped.apart hcontains hcontains'
  exact hexclusive.unique hpoints hpoints'

end LiesIn

/-- A call on a part of one variable leaves every other variable with its `str`, and what it
deletes is pointed to by no node. -/
structure Separate (heap heap' : JsonHeap δ) (a : Action δ) : Prop where
  others : ∀ this, a.target = some this → ∀ root ∈ heap.roots, heap.LiesIn root this →
    ∀ other ∈ heap.roots, other ≠ root → ∀ j, heap.nodes other = some j →
      heap'.nodes other = some j ∧
        ∀ ostream fuel, heap'.str ostream fuel j = heap.str ostream fuel j
  deleted : ∀ p, (heap.blocks p).isSome → heap'.blocks p = none → ∀ addr, ¬ heap'.Points addr p

section Runs

variable [Zero δ] {visited : List (JsonHeap δ × Action δ)}

end Runs

end JsonHeap

end CppProjects
