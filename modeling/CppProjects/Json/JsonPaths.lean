import CppProjects.Json.JsonStr

/-!
# Assignments to paths of a `Json`

`obj[k1][k2]...[kn] = s` sets a path of a tree.  Every value that is met on the way and is
no object becomes an empty one, and what lies beside the path stays.
-/

namespace CppProjects

open OrderedMap

variable {δ : Type}

/-! ## Trees -/

namespace JsonTree

variable {t value : JsonTree δ} {path other : List (List Char)}

/-- The members of an object; another value has none. -/
def members : JsonTree δ → List (List Char × JsonTree δ)
  | .object members => members
  | _ => []

/-- The value at a path. -/
def at? : List (List Char) → JsonTree δ → Option (JsonTree δ)
  | [], t => some t
  | key :: path, t => (lookup? key t.members).bind (at? path)

/-- The tree with `value` at a path. -/
def setPath (t value : JsonTree δ) : List (List Char) → JsonTree δ
  | [] => value
  | key :: path =>
      .object (insertEntry key (setPath ((lookup? key t.members).getD .null) value path) t.members)

/-- What is not above or below the path stays. -/
theorem at?_setPath_of_apart (hapart : ¬ path <+: other) (hapart' : ¬ other <+: path) :
    (t.setPath value path).at? other = t.at? other := by
  induction path generalizing other t with
  | nil => exact absurd List.nil_prefix hapart
  | cons key path ih =>
      cases other with
      | nil => exact absurd List.nil_prefix hapart'
      | cons key' other =>
          change (lookup? key' (insertEntry key _ t.members)).bind (at? other) =
            (lookup? key' t.members).bind (at? other)
          rw [lookup?_insertEntry]
          by_cases hkey : key' = key
          · subst hkey
            rw [List.prefix_cons_inj] at hapart hapart'
            rw [if_pos rfl, Option.bind_some, ih hapart hapart']
            cases lookup? key' t.members with
            | some found => rfl
            | none =>
                cases other with
                | nil => exact absurd List.nil_prefix hapart'
                | cons key other => rfl
          · rw [if_neg hkey]

/-- The last assignment to a path is found there. -/
theorem at?_setPath_self (t value : JsonTree δ) (path : List (List Char)) :
    (t.setPath value path).at? path = some value := by
  induction path generalizing t with
  | nil => rfl
  | cons key path ih =>
      change (lookup? key (insertEntry key _ t.members)).bind (at? path) = some value
      rw [lookup?_insertEntry, if_pos rfl, Option.bind_some, ih]

/-- Assignments to paths that are apart may change places. -/
theorem setPath_comm {value' : JsonTree δ} (hapart : ¬ path <+: other)
    (hapart' : ¬ other <+: path) :
    (t.setPath value path).setPath value' other = (t.setPath value' other).setPath value path := by
  induction path generalizing other t with
  | nil => exact absurd List.nil_prefix hapart
  | cons key path ih =>
      cases other with
      | nil => exact absurd List.nil_prefix hapart'
      | cons key' other =>
          simp only [setPath, members, lookup?_insertEntry]
          by_cases hkey : key' = key
          · subst hkey
            rw [List.prefix_cons_inj] at hapart hapart'
            simp only [if_true, Option.getD_some, insertEntry_insertEntry, ih hapart hapart']
          · rw [if_neg hkey, if_neg (Ne.symm hkey), insertEntry_comm hkey]

end JsonTree

/-- The tree of a `bool`, an `int`, a `double` or a `string`. -/
def Scalar.tree : Scalar δ → JsonTree δ
  | .bool value => .bool value
  | .int value => .int value
  | .double value => .double value
  | .string text => .string text

namespace JsonHeap

open NodeHeap

/-- `this[k1][k2]...[kn] = value`. -/
def assignPath (value : Scalar δ) : List (List Char) → ℕ → JsonHeap δ → Option (JsonHeap δ)
  | [], this, heap => heap.assign this value
  | key :: path, this, heap => do
      let (heap, addr) ← heap.indexKey this key
      assignPath value path addr heap

/-- Assignments to paths of `this`, one after another. -/
def assignPaths : List (List (List Char) × Scalar δ) → ℕ → JsonHeap δ → Option (JsonHeap δ)
  | [], _, heap => some heap
  | assignment :: assignments, this, heap => do
      let heap ← assignPath assignment.2 assignment.1 this heap
      assignPaths assignments this heap

/-- The tree that assignments make of `t`. -/
def assigned (assignments : List (List (List Char) × Scalar δ)) (t : JsonTree δ) : JsonTree δ :=
  assignments.foldl (fun t assignment => t.setPath assignment.2.tree assignment.1) t

variable {heap heap' heap'' : JsonHeap δ} {this addr p : ℕ} {t t' : JsonTree δ}
  {footprint footprint' footprint'' : List ℕ} {cells : List (Cell δ)}

/-! ## Trees that own their nodes and blocks -/

/-- The node at `addr` holds `t`, and the nodes and blocks it takes up are its own. -/
structure Owns (heap : JsonHeap δ) (addr : ℕ) (t : JsonTree δ) (footprint : List ℕ) : Prop where
  holds : heap.Holds addr t footprint
  nodup : footprint.Nodup
  lt_top : ∀ a ∈ footprint, a < heap.top

/-- Only what is in `footprint` changes, and `footprint'` is part of it and of what is new. -/
structure Within (heap heap' : JsonHeap δ) (footprint footprint' : List ℕ) : Prop where
  top_le : heap.top ≤ heap'.top
  nodes : ∀ a < heap.top, a ∉ footprint → heap'.nodes a = heap.nodes a
  blocks : ∀ a < heap.top, a ∉ footprint → heap'.blocks a = heap.blocks a
  new : ∀ a ∈ footprint', a ∈ footprint ∨ heap.top ≤ a

theorem Within.refl : Within heap heap footprint footprint :=
  ⟨Nat.le_refl _, fun _ _ _ => rfl, fun _ _ _ => rfl, fun _ => .inl⟩

theorem Within.notMem (hwithin : Within heap heap' footprint footprint') {a : ℕ}
    (hlt : a < heap.top) (hmem : a ∉ footprint) : a ∉ footprint' := by
  intro hmem'
  rcases hwithin.new a hmem' with hold | hnew
  · exact hmem hold
  · exact absurd hlt (Nat.not_lt.mpr hnew)

theorem Within.trans (hfirst : Within heap heap' footprint footprint')
    (hsecond : Within heap' heap'' footprint' footprint'') :
    Within heap heap'' footprint footprint'' where
  top_le := hfirst.top_le.trans hsecond.top_le
  nodes := by
    intro a hlt hmem
    rw [hsecond.nodes a (hlt.trans_le hfirst.top_le) (hfirst.notMem hlt hmem), hfirst.nodes a hlt hmem]
  blocks := by
    intro a hlt hmem
    rw [hsecond.blocks a (hlt.trans_le hfirst.top_le) (hfirst.notMem hlt hmem), hfirst.blocks a hlt hmem]
  new := by
    intro a hmem
    rcases hsecond.new a hmem with hold | hnew
    · exact hfirst.new a hold
    · exact .inr (hfirst.top_le.trans hnew)

/-- What lies apart from a change stays. -/
theorem Holds.frame (hholds : heap.Holds addr t footprint) (hlt : ∀ a ∈ footprint, a < heap.top)
    (hwithin : Within heap heap' footprint' footprint'')
    (hapart : ∀ a ∈ footprint, a ∉ footprint') : heap'.Holds addr t footprint :=
  hholds.congr (fun a hmem => hwithin.nodes a (hlt a hmem) (hapart a hmem))
    fun a hmem => hwithin.blocks a (hlt a hmem) (hapart a hmem)

/-! ## Assignments of a value -/

/-- A value without a block takes the place of a tree. -/
theorem Owns.setNode (howns : heap.Owns this t footprint) {j : Json δ}
    (hholds : Holds (heap.setNode this j) this t' [this]) :
    Owns (heap.setNode this j) this t' [this] ∧
      Within heap (heap.setNode this j) footprint [this] := by
  have hthis := howns.holds.mem
  refine ⟨⟨hholds, List.nodup_singleton this, ?_⟩, ⟨Nat.le_refl _, ?_, fun _ _ _ => rfl, ?_⟩⟩
  · intro a hmem
    exact howns.lt_top a (List.mem_singleton.mp hmem ▸ hthis)
  · intro a _ hmem
    exact nodes_setNode_of_ne fun heq => hmem (heq ▸ hthis)
  · intro a hmem
    exact .inl (List.mem_singleton.mp hmem ▸ hthis)

/-- A block of a tree is deleted. -/
theorem Owns.release (howns : heap.Owns this t footprint) {block : JsonBlock}
    (hblock : heap.blocks p = some block) (hp : p ∈ footprint)
    (hchildren : ∀ a ∈ children block, a ∈ footprint ∧ a ≠ this) :
    ∃ heap', heap.release this p = some heap' ∧ heap'.Owns this .null [this] ∧
      Within heap heap' footprint [this] := by
  have hthis := howns.holds.mem
  have hkept : this ∉ children block := fun hmem => (hchildren this hmem).2 rfl
  obtain ⟨j, hnode⟩ := howns.holds.exists_node
  have hlive : ((heap.drop p block).nodes this).isSome := by
    have hsame : (heap.drop p block).nodes this = heap.nodes this := nodes_discard_of_notMem hkept
    rw [hsame, hnode]
    rfl
  refine ⟨(heap.drop p block).setNode this .null, ?_, ⟨.null nodes_setNode_self,
    List.nodup_singleton this, ?_⟩, ⟨Nat.le_refl _, ?_, ?_, ?_⟩⟩
  · rw [JsonHeap.release, hblock]
    exact if_pos hlive
  · intro a hmem
    exact howns.lt_top a (List.mem_singleton.mp hmem ▸ hthis)
  · intro a _ hmem
    have hne : a ≠ this := fun heq => hmem (heq ▸ hthis)
    rw [nodes_setNode_of_ne hne]
    exact nodes_discard_of_notMem fun hchild => hmem (hchildren a hchild).1
  · intro a _ hmem
    change (heap.drop p block).blocks a = heap.blocks a
    exact blocks_drop_of_ne fun heq => hmem (heq ▸ hp)
  · intro a hmem
    exact .inl (List.mem_singleton.mp hmem ▸ hthis)

theorem mem_footprint_of_mem_children
    (hcells : ∀ cell ∈ cells, heap.Holds cell.addr cell.tree cell.footprint)
    (hnodup : (this :: p :: cells.flatMap Cell.footprint).Nodup) {a : ℕ}
    (hmem : a ∈ cells.map Cell.addr) :
    a ∈ this :: p :: cells.flatMap Cell.footprint ∧ a ≠ this := by
  obtain ⟨cell, hcell, rfl⟩ := List.mem_map.mp hmem
  have hbelow : cell.addr ∈ p :: cells.flatMap Cell.footprint :=
    List.mem_cons_of_mem _ (List.mem_flatMap.mpr ⟨cell, hcell, (hcells cell hcell).mem⟩)
  refine ⟨List.mem_cons_of_mem _ hbelow, ?_⟩
  rintro rfl
  exact (List.nodup_cons.mp hnodup).1 hbelow

theorem Owns.clear (howns : heap.Owns this t footprint) :
    ∃ heap', heap.clear this = some heap' ∧ heap'.Owns this .null [this] ∧
      Within heap heap' footprint [this] := by
  have hleaf : ∀ payload : Payload δ, heap.nodes this ≠ none →
      ∃ heap', heap.write this ⟨.jsonNull, payload⟩ = some heap' ∧ Owns heap' this .null [this] ∧
        Within heap heap' footprint [this] := by
    intro payload hnode
    exact ⟨_, if_pos (Option.isSome_iff_ne_none.mpr hnode),
      howns.setNode (.null nodes_setNode_self)⟩
  cases howns.holds with
  | null hnode =>
      rw [JsonHeap.clear, hnode]
      exact hleaf _ (by simp [hnode])
  | bool hnode =>
      rw [JsonHeap.clear, hnode]
      exact hleaf _ (by simp [hnode])
  | int hnode =>
      rw [JsonHeap.clear, hnode]
      exact hleaf _ (by simp [hnode])
  | double hnode =>
      rw [JsonHeap.clear, hnode]
      exact hleaf _ (by simp [hnode])
  | string hnode hblock =>
      rw [JsonHeap.clear, hnode]
      exact howns.release hblock (by simp) fun a hmem => nomatch hmem
  | @array _ p capacity cells hnode hblock hcells =>
      rw [JsonHeap.clear, hnode]
      apply howns.release hblock (by simp)
      intro a hmem
      exact mem_footprint_of_mem_children hcells howns.nodup hmem
  | @object _ p cells entries hnode hblock hentries hcells =>
      rw [JsonHeap.clear, hnode]
      apply howns.release hblock (by simp)
      intro a hmem
      change a ∈ entries.entries.map Prod.snd at hmem
      rw [hentries, List.map_map] at hmem
      exact mem_footprint_of_mem_children hcells howns.nodup hmem

/-- A block without nodes takes the place of a tree. -/
theorem Owns.install (howns : heap.Owns this t footprint) (block : JsonBlock) (value : ℕ → Json δ)
    (hholds : Holds ((heap.newBlock block).setNode this (value heap.top)) this t'
      [this, heap.top]) :
    ∃ heap', heap.install this block value = some heap' ∧ heap'.Owns this t' [this, heap.top] ∧
      Within heap heap' footprint [this, heap.top] := by
  have hthis := howns.holds.mem
  have hlt := howns.lt_top this hthis
  obtain ⟨j, hnode⟩ := howns.holds.exists_node
  refine ⟨_, if_pos (Option.isSome_of_eq_some hnode), ⟨hholds, ?_, ?_⟩, ⟨Nat.le_succ _, ?_, ?_, ?_⟩⟩
  · simp [hlt.ne]
  · intro a hmem
    rcases List.mem_pair.mp hmem with rfl | rfl
    · exact Nat.lt_succ_of_lt hlt
    · exact Nat.lt_succ_self _
  · intro a _ hmem
    exact nodes_setNode_of_ne fun heq => hmem (heq ▸ hthis)
  · intro a hlt _
    exact blocks_newBlock_of_ne hlt.ne
  · intro a hmem
    rcases List.mem_pair.mp hmem with rfl | rfl
    · exact .inl hthis
    · exact .inr (Nat.le_refl _)

theorem Owns.clearUnless (howns : heap.Owns this t footprint) (type : JsonType) :
    ∃ heap' t' footprint', heap.clearUnless this type = some heap' ∧ heap'.Owns this t' footprint' ∧
      Within heap heap' footprint footprint' := by
  obtain ⟨j, hnode⟩ := howns.holds.exists_node
  rw [JsonHeap.clearUnless, hnode, Option.bind_eq_bind, Option.bind_some]
  split_ifs
  · exact ⟨heap, t, footprint, rfl, howns, .refl⟩
  · obtain ⟨heap', hclear, hcleared, hwithin⟩ := howns.clear
    exact ⟨heap', .null, [this], hclear, hcleared, hwithin⟩

theorem Owns.assignValue (howns : heap.Owns this t footprint) {value : Json δ}
    (hholds : ∀ heap' : JsonHeap δ, Holds (heap'.setNode this value) this t' [this]) :
    ∃ heap', heap.assignValue this value = some heap' ∧ heap'.Owns this t' [this] ∧
      Within heap heap' footprint [this] := by
  obtain ⟨cleared, old, footprint', hclear, hcleared, hfirst⟩ := howns.clearUnless value.mType
  obtain ⟨j, hnode⟩ := hcleared.holds.exists_node
  obtain ⟨hassigned, hsecond⟩ := hcleared.setNode (hholds cleared)
  refine ⟨_, ?_, hassigned, hfirst.trans hsecond⟩
  rw [JsonHeap.assignValue, hclear]
  exact if_pos (Option.isSome_of_eq_some hnode)

theorem Holds.exists_text {j : Json δ} (hholds : heap.Holds this t footprint)
    (hnode : heap.nodes this = some j) (htype : j.mType = .jsonString) :
    ∃ p old, j = ⟨.jsonString, .mString p⟩ ∧ heap.blocks p = some (.string old) ∧
      footprint = [this, p] := by
  cases hholds with
  | @string _ p old hnode' hblock =>
      exact ⟨p, old, Option.some.inj (hnode.symm.trans hnode'), hblock, rfl⟩
  | null hnode' | bool hnode' | int hnode' | double hnode' | array hnode' | object hnode' =>
      obtain rfl := Option.some.inj (hnode.symm.trans hnode')
      cases htype

/-- The text of a string is overwritten. -/
theorem Owns.overwrite (howns : heap.Owns this t [this, p]) {text : List Char}
    (hnode : heap.nodes this = some ⟨.jsonString, .mString p⟩) :
    Owns (heap.setBlock p (.string text)) this (.string text) [this, p] ∧
      Within heap (heap.setBlock p (.string text)) [this, p] [this, p] := by
  refine ⟨⟨.string hnode blocks_setBlock_self, howns.nodup, howns.lt_top⟩,
    ⟨Nat.le_refl _, fun _ _ _ => rfl, ?_, fun _ => .inl⟩⟩
  intro a _ hmem
  exact blocks_setBlock_of_ne fun heq => hmem (List.mem_pair.mpr (.inr heq))

/-- `operator=` leaves its argument. -/
theorem Owns.assign (howns : heap.Owns this t footprint) (value : Scalar δ) :
    ∃ heap' footprint', heap.assign this value = some heap' ∧
      heap'.Owns this value.tree footprint' ∧ Within heap heap' footprint footprint' := by
  cases value with
  | bool value =>
      exact (howns.assignValue fun _ => .bool nodes_setNode_self).imp fun _ => .intro _
  | int value =>
      exact (howns.assignValue fun _ => .int nodes_setNode_self).imp fun _ => .intro _
  | double value =>
      exact (howns.assignValue fun _ => .double nodes_setNode_self).imp fun _ => .intro _
  | string text =>
      obtain ⟨j, hnode⟩ := howns.holds.exists_node
      rw [JsonHeap.assign, hnode, Option.bind_eq_bind, Option.bind_some]
      split_ifs with htype
      · obtain ⟨p, old, rfl, hblock, rfl⟩ := howns.holds.exists_text hnode htype
        refine ⟨_, _, ?_, howns.overwrite hnode⟩
        simp [Payload.mString?, JsonHeap.text?, hblock, JsonBlock.text?]
      · obtain ⟨cleared, hclear, hcleared, hfirst⟩ := howns.clear
        obtain ⟨heap', hinstall, hassigned, hsecond⟩ := hcleared.install (.string text)
          (fun p => ⟨.jsonString, .mString p⟩) (.string nodes_setNode_self blocks_newBlock_top)
        refine ⟨heap', _, ?_, hassigned, hfirst.trans hsecond⟩
        rw [hclear]
        exact hinstall

/-! ## Objects -/

def cellsFootprint (this p : ℕ) (cells : List (Cell δ)) : List ℕ :=
  this :: p :: cells.flatMap Cell.footprint

def cellMembers (cells : List (Cell δ)) : List (List Char × JsonTree δ) :=
  cells.map fun cell => (cell.name, cell.tree)

/-- The node at `this` is an object whose map is in the block `p` and has the entries
`cells`. -/
structure OwnsCells (heap : JsonHeap δ) (this p : ℕ) (cells : List (Cell δ)) : Prop where
  node : heap.nodes this = some ⟨.jsonObject, .mObject p⟩
  block : ∃ entries, heap.blocks p = some (.object entries) ∧
    entries.entries = cells.map fun cell => (cell.name, cell.addr)
  holds : ∀ cell ∈ cells, heap.Holds cell.addr cell.tree cell.footprint
  nodup : (cellsFootprint this p cells).Nodup
  lt_top : ∀ a ∈ cellsFootprint this p cells, a < heap.top

theorem OwnsCells.owns (hcells : heap.OwnsCells this p cells) :
    heap.Owns this (.object (cellMembers cells)) (cellsFootprint this p cells) := by
  obtain ⟨entries, hblock, hentries⟩ := hcells.block
  exact ⟨.object hcells.node hblock hentries hcells.holds, hcells.nodup, hcells.lt_top⟩

theorem Owns.exists_cells {members : List (List Char × JsonTree δ)}
    (howns : heap.Owns this (.object members) footprint) :
    ∃ p cells, members = cellMembers cells ∧ footprint = cellsFootprint this p cells ∧
      heap.OwnsCells this p cells := by
  obtain ⟨hholds, hnodup, hlt⟩ := howns
  cases hholds with
  | @object _ p cells entries hnode hblock hentries hcells =>
      exact ⟨p, cells, rfl, rfl, hnode, ⟨entries, hblock, hentries⟩, hcells, hnodup, hlt⟩

theorem Holds.members_cases {j : Json δ} (hholds : heap.Holds this t footprint)
    (hnode : heap.nodes this = some j) :
    (j.mType = .jsonObject ∧ t = .object t.members) ∨ (j.mType ≠ .jsonObject ∧ t.members = []) := by
  cases hholds with
  | object hnode' =>
      obtain rfl := Option.some.inj (hnode.symm.trans hnode')
      exact .inl ⟨rfl, rfl⟩
  | null hnode' | bool hnode' | int hnode' | double hnode' | string hnode' | array hnode' =>
      obtain rfl := Option.some.inj (hnode.symm.trans hnode')
      exact .inr ⟨nofun, rfl⟩

/-- What is no object becomes an empty one. -/
theorem Owns.becomeObject (howns : heap.Owns this t footprint) :
    ∃ heap' footprint', heap.becomeObject this = some heap' ∧
      heap'.Owns this (.object t.members) footprint' ∧ Within heap heap' footprint footprint' := by
  obtain ⟨j, hnode⟩ := howns.holds.exists_node
  rw [JsonHeap.becomeObject, hnode, Option.bind_eq_bind, Option.bind_some]
  rcases howns.holds.members_cases hnode with ⟨htype, hobject⟩ | ⟨htype, hmembers⟩
  · rw [if_pos htype, ← hobject]
    exact ⟨heap, footprint, rfl, howns, .refl⟩
  · obtain ⟨cleared, hclear, hcleared, hfirst⟩ := howns.clear
    have hholds : Holds ((cleared.newBlock (.object OrderedMap.empty)).setNode this
        ⟨.jsonObject, .mObject cleared.top⟩) this (.object []) [this, cleared.top] :=
      @Holds.object δ _ _ _ [] _ nodes_setNode_self blocks_newBlock_top rfl nofun
    obtain ⟨heap', hinstall, hassigned, hsecond⟩ := hcleared.install (.object OrderedMap.empty)
      (fun p => ⟨.jsonObject, .mObject p⟩) hholds
    rw [if_neg htype, hclear, hmembers]
    exact ⟨heap', _, hinstall, hassigned, hfirst.trans hsecond⟩

section Split

variable {before after : List (Cell δ)} {cell : Cell δ}

theorem cellsFootprint_perm : (cellsFootprint this p (before ++ cell :: after)).Perm
    (cell.footprint ++ cellsFootprint this p (before ++ after)) := by
  rw [cellsFootprint, cellsFootprint, List.flatMap_append, List.flatMap_cons, List.flatMap_append]
  have hfront := (List.perm_append_comm_assoc (before.flatMap Cell.footprint) cell.footprint
    (after.flatMap Cell.footprint)).cons p
  exact ((hfront.trans List.perm_middle.symm).cons this).trans List.perm_middle.symm

theorem mem_cellsFootprint_split {a : ℕ} : a ∈ cellsFootprint this p (before ++ cell :: after) ↔
    a ∈ cell.footprint ∨ a ∈ cellsFootprint this p (before ++ after) := by
  rw [cellsFootprint_perm.mem_iff, List.mem_append]

theorem nodup_cellsFootprint_split : (cellsFootprint this p (before ++ cell :: after)).Nodup ↔
    cell.footprint.Nodup ∧ (cellsFootprint this p (before ++ after)).Nodup ∧
      ∀ a ∈ cell.footprint, a ∉ cellsFootprint this p (before ++ after) := by
  rw [cellsFootprint_perm.nodup_iff, List.nodup_append']
  rfl

theorem cellMembers_split :
    cellMembers (before ++ cell :: after) =
      cellMembers before ++ (cell.name, cell.tree) :: cellMembers after := by
  rw [cellMembers, List.map_append, List.map_cons]
  rfl

theorem mem_cells_split {other : Cell δ} :
    other ∈ before ++ cell :: after ↔ other = cell ∨ other ∈ before ++ after := by
  rw [List.mem_append, List.mem_cons, List.mem_append]
  exact or_left_comm

end Split

/-- A cell that is null gets a place between the others. -/
theorem OwnsCells.newCell {before after : List (Cell δ)}
    (hcells : heap.OwnsCells this p (before ++ after)) {entries : OrderedMap (List Char) ℕ}
    {key : List Char} (hentries : entries.entries =
      (before ++ ⟨key, heap.top, .null, [heap.top]⟩ :: after).map fun cell =>
        (cell.name, cell.addr)) :
    OwnsCells ((heap.newNode .null).setBlock p (.object entries)) this p
        (before ++ ⟨key, heap.top, .null, [heap.top]⟩ :: after) ∧
      Within heap ((heap.newNode .null).setBlock p (.object entries))
        (cellsFootprint this p (before ++ after))
        (cellsFootprint this p (before ++ ⟨key, heap.top, .null, [heap.top]⟩ :: after)) := by
  have hthis : this ∈ cellsFootprint this p (before ++ after) := List.mem_cons_self
  have hp : p ∈ cellsFootprint this p (before ++ after) := List.mem_cons_of_mem _ List.mem_cons_self
  have hwithin : Within heap ((heap.newNode .null).setBlock p (.object entries)) [p] [p] := by
    refine ⟨Nat.le_succ _, fun a hlt _ => nodes_newNode_of_ne hlt.ne, ?_, fun _ => .inl⟩
    intro a _ hmem
    exact blocks_setBlock_of_ne fun heq => hmem (List.mem_singleton.mpr heq)
  have hapart : p ∉ (before ++ after).flatMap Cell.footprint :=
    (List.nodup_cons.mp (List.nodup_cons.mp hcells.nodup).2).1
  refine ⟨⟨?_, ⟨entries, blocks_setBlock_self, hentries⟩, ?_, ?_, ?_⟩, ⟨Nat.le_succ _, ?_, ?_, ?_⟩⟩
  · exact (nodes_newNode_of_ne (hcells.lt_top this hthis).ne).trans hcells.node
  · intro other hmem
    rcases mem_cells_split.mp hmem with rfl | hother
    · exact .null nodes_newNode_top
    · refine (hcells.holds other hother).frame
        (fun a ha => hcells.lt_top a (footprint_subset hother ha)) hwithin fun a ha hmem => ?_
      obtain rfl := List.mem_singleton.mp hmem
      exact hapart (List.mem_flatMap.mpr ⟨other, hother, ha⟩)
  · refine nodup_cellsFootprint_split.mpr ⟨List.nodup_singleton _, hcells.nodup, ?_⟩
    intro a hmem hbase
    exact absurd (hcells.lt_top a hbase) (List.mem_singleton.mp hmem ▸ Nat.lt_irrefl _)
  · intro a hmem
    rcases mem_cellsFootprint_split.mp hmem with hcell | hbase
    · exact List.mem_singleton.mp hcell ▸ Nat.lt_succ_self _
    · exact Nat.lt_succ_of_lt (hcells.lt_top a hbase)
  · exact fun a hlt _ => nodes_newNode_of_ne hlt.ne
  · exact fun a _ hmem => blocks_setBlock_of_ne fun heq => hmem (heq ▸ hp)
  · intro a hmem
    rcases mem_cellsFootprint_split.mp hmem with hcell | hbase
    · exact .inr (List.mem_singleton.mp hcell).ge
    · exact .inl hbase

/-- `(*m_object)[key]` finds a cell or makes one that is null. -/
theorem OwnsCells.entry (hcells : heap.OwnsCells this p cells) (key : List Char) :
    ∃ heap' before cell after, heap.entry this key = some (heap', cell.addr) ∧
      heap'.OwnsCells this p (before ++ cell :: after) ∧ cell.name = key ∧
      cell.tree = (lookup? key (cellMembers cells)).getD .null ∧
      (∀ t, insertEntry key t (cellMembers cells) =
        cellMembers before ++ (key, t) :: cellMembers after) ∧
      Within heap heap' (cellsFootprint this p cells)
        (cellsFootprint this p (before ++ cell :: after)) := by
  obtain ⟨entries, hblock, hentries⟩ := hcells.block
  have hsorted : (cells.map Cell.name).Pairwise (· < ·) := by
    have hkeys := List.pairwise_map.mpr entries.sorted
    rwa [hentries, List.map_map] at hkeys
  obtain ⟨before, found, after, hsplit, hname, hplace⟩ := exists_place Cell.name key hsorted
  have hfind : entries.find? key = found.map Cell.addr := by
    rw [find?, hentries]
    exact (hplace Cell.addr).1
  have hlookup : lookup? key (cellMembers cells) = found.map Cell.tree := (hplace Cell.tree).1
  have hinsert : ∀ t, insertEntry key t (cellMembers cells) =
      cellMembers before ++ (key, t) :: cellMembers after := (hplace Cell.tree).2
  rw [hlookup]
  cases found with
  | some cell =>
      obtain rfl := hsplit
      have hentry : heap.entry this key = some (heap, cell.addr) := by
        simp [JsonHeap.entry, hcells.node, Payload.mObject?, JsonHeap.entries?, hblock,
          JsonBlock.entries?, hfind]
      exact ⟨heap, before, cell, after, hentry, hcells, hname cell rfl, rfl, hinsert, .refl⟩
  | none =>
      obtain rfl := hsplit
      have hnew : (entries.insert key heap.top).entries =
          (before ++ ⟨key, heap.top, .null, [heap.top]⟩ :: after : List (Cell δ)).map fun cell =>
            (cell.name, cell.addr) := by
        rw [List.map_append, List.map_cons]
        exact (congrArg (insertEntry key heap.top) hentries).trans ((hplace Cell.addr).2 heap.top)
      have hentry : heap.entry this key = some
          ((heap.newNode .null).setBlock p (.object (entries.insert key heap.top)), heap.top) := by
        simp [JsonHeap.entry, hcells.node, Payload.mObject?, JsonHeap.entries?, hblock,
          JsonBlock.entries?, hfind]
      obtain ⟨howns, hwithin⟩ := hcells.newCell hnew
      exact ⟨_, before, ⟨key, heap.top, .null, [heap.top]⟩, after, hentry, howns, rfl, rfl, hinsert,
        hwithin⟩

/-- What is in a cell is replaced. -/
theorem OwnsCells.replace {before after : List (Cell δ)} {cell : Cell δ}
    (hcells : heap.OwnsCells this p (before ++ cell :: after))
    (howns : heap'.Owns cell.addr t footprint)
    (hwithin : Within heap heap' cell.footprint footprint) :
    heap'.OwnsCells this p (before ++ ⟨cell.name, cell.addr, t, footprint⟩ :: after) ∧
      Within heap heap' (cellsFootprint this p (before ++ cell :: after))
        (cellsFootprint this p (before ++ ⟨cell.name, cell.addr, t, footprint⟩ :: after)) := by
  obtain ⟨-, hnodup, hapart⟩ := nodup_cellsFootprint_split.mp hcells.nodup
  have hlt : ∀ a ∈ cellsFootprint this p (before ++ after), a < heap.top := fun a hmem =>
    hcells.lt_top a (mem_cellsFootprint_split.mpr (.inr hmem))
  have hkept : ∀ a ∈ cellsFootprint this p (before ++ after), a ∉ cell.footprint :=
    fun a hmem hcell => hapart a hcell hmem
  have hothers : ∀ other ∈ before ++ after, heap'.Holds other.addr other.tree other.footprint := by
    intro other hmem
    have hpart : ∀ a ∈ other.footprint, a ∈ cellsFootprint this p (before ++ after) := fun a ha =>
      footprint_subset hmem ha
    exact (hcells.holds other (mem_cells_split.mpr (.inr hmem))).frame
      (fun a ha => hlt a (hpart a ha)) hwithin fun a ha => hkept a (hpart a ha)
  obtain ⟨entries, hblock, hentries⟩ := hcells.block
  have hthis : this ∈ cellsFootprint this p (before ++ after) := List.mem_cons_self
  have hp : p ∈ cellsFootprint this p (before ++ after) := List.mem_cons_of_mem _ List.mem_cons_self
  refine ⟨⟨(hwithin.nodes this (hlt _ hthis) (hkept _ hthis)).trans hcells.node,
    ⟨entries, (hwithin.blocks p (hlt _ hp) (hkept _ hp)).trans hblock, ?_⟩, ?_, ?_, ?_⟩,
    ⟨hwithin.top_le, ?_, ?_, ?_⟩⟩
  · rw [hentries, List.map_append, List.map_append]
    rfl
  · intro other hmem
    rcases mem_cells_split.mp hmem with rfl | hother
    · exact howns.holds
    · exact hothers other hother
  · refine nodup_cellsFootprint_split.mpr ⟨howns.nodup, hnodup, fun a hmem hbase => ?_⟩
    exact hwithin.notMem (hlt a hbase) (hkept a hbase) hmem
  · intro a hmem
    rcases mem_cellsFootprint_split.mp hmem with hcell | hbase
    · exact howns.lt_top a hcell
    · exact (hlt a hbase).trans_le hwithin.top_le
  · intro a hlt hmem
    exact hwithin.nodes a hlt fun hcell => hmem (mem_cellsFootprint_split.mpr (.inl hcell))
  · intro a hlt hmem
    exact hwithin.blocks a hlt fun hcell => hmem (mem_cellsFootprint_split.mpr (.inl hcell))
  · intro a hmem
    rcases mem_cellsFootprint_split.mp hmem with hcell | hbase
    · exact (hwithin.new a hcell).imp_left fun hcell => mem_cellsFootprint_split.mpr (.inl hcell)
    · exact .inl (mem_cellsFootprint_split.mpr (.inr hbase))

/-! ## Assignments to paths -/

/-- An assignment to a path sets it. -/
theorem Owns.assignPath (howns : heap.Owns this t footprint) (value : Scalar δ)
    (path : List (List Char)) :
    ∃ heap' footprint', heap.assignPath value path this = some heap' ∧
      heap'.Owns this (t.setPath value.tree path) footprint' ∧
      Within heap heap' footprint footprint' := by
  induction path generalizing heap this t footprint with
  | nil => exact howns.assign value
  | cons key path ih =>
      obtain ⟨opened, _, hopen, hopened, hfirst⟩ := howns.becomeObject
      obtain ⟨p, cells, hmembers, rfl, hcells⟩ := hopened.exists_cells
      obtain ⟨entered, before, cell, after, hentry, hentered, hname, htree, hinsert, hsecond⟩ :=
        hcells.entry key
      have hcell : entered.Owns cell.addr cell.tree cell.footprint :=
        ⟨hentered.holds cell (mem_cells_split.mpr (.inl rfl)),
          (nodup_cellsFootprint_split.mp hentered.nodup).1,
          fun a hmem => hentered.lt_top a (mem_cellsFootprint_split.mpr (.inl hmem))⟩
      obtain ⟨heap', footprint', hpath, hassigned, hthird⟩ := ih hcell
      obtain ⟨hreplaced, hwithin⟩ := hentered.replace hassigned hthird
      have hindex : heap.indexKey this key = some (entered, cell.addr) := by
        rw [indexKey, hopen]
        exact hentry
      have hset : t.setPath value.tree (key :: path) = .object (cellMembers (before ++
          ⟨cell.name, cell.addr, cell.tree.setPath value.tree path, footprint'⟩ :: after)) := by
        rw [JsonTree.setPath, cellMembers_split, hmembers, hinsert, ← htree, hname]
      refine ⟨heap', _, ?_, hset ▸ hreplaced.owns, hfirst.trans (hsecond.trans hwithin)⟩
      rw [JsonHeap.assignPath, hindex]
      exact hpath

theorem Owns.assignPaths (howns : heap.Owns this t footprint)
    (assignments : List (List (List Char) × Scalar δ)) :
    ∃ heap' footprint', heap.assignPaths assignments this = some heap' ∧
      heap'.Owns this (assigned assignments t) footprint' := by
  induction assignments generalizing heap t footprint with
  | nil => exact ⟨heap, footprint, rfl, howns⟩
  | cons assignment assignments ih =>
      obtain ⟨middle, _, hpath, hassigned, -⟩ := howns.assignPath assignment.2 assignment.1
      obtain ⟨heap', footprint', hpaths, hassigned⟩ := ih hassigned
      refine ⟨heap', footprint', ?_, hassigned⟩
      rw [JsonHeap.assignPaths, hpath]
      exact hpaths

/-- `has` finds the keys of an object. -/
theorem Holds.has (hholds : heap.Holds this t footprint) (key : List Char) :
    heap.has this key = some (decide (key ∈ t.members.map Prod.fst)) := by
  cases hholds with
  | @object _ p cells entries hnode hblock hentries =>
      have hkeys : entries.entries.map Prod.fst = (cellMembers cells).map Prod.fst := by
        rw [hentries, cellMembers, List.map_map, List.map_map]
        rfl
      have hhas : heap.has this key = some (entries.find? key).isSome := by
        simp [JsonHeap.has, hnode, Payload.mObject?, JsonHeap.entries?, hblock, JsonBlock.entries?]
      rw [hhas, Option.some.injEq, Bool.eq_iff_iff, decide_eq_true_iff, find?, isSome_lookup?_iff,
        hkeys]
      rfl
  | null hnode | bool hnode | int hnode | double hnode | string hnode | array hnode =>
      rw [JsonHeap.has, hnode]
      rfl

/-- Assignments to paths of a null `Json` build the tree in which each of them has set its
path.  `has` finds the keys of its root, and `str` prints it with keys in order.  The last
assignment to a path is found there.  What lies neither above nor below it stays, and
assignments to such paths may change places. -/
theorem assignPaths_builds (heap : JsonHeap δ) (assignments : List (List (List Char) × Scalar δ)) :
    ∃ (heap' : JsonHeap δ) (j : Json δ) (footprint : List ℕ) (t : JsonTree δ),
      t = assigned assignments .null ∧
      assignPaths assignments heap.top (heap.newRoot .null) = some heap' ∧
      heap'.nodes heap.top = some j ∧ heap'.Holds heap.top t footprint ∧
      (∀ key, heap'.has heap.top key = some (decide (key ∈ t.members.map Prod.fst))) ∧
      (∀ ostream fuel, footprint.length ≤ fuel → heap'.str ostream fuel j = some (t.str ostream)) ∧
      t.Sorted ∧
      ∀ path value, (assigned [(path, value)] t).at? path = some value.tree ∧
        ∀ other, ¬ path <+: other → ¬ other <+: path →
          (assigned [(path, value)] t).at? other = t.at? other ∧
          ∀ value', assigned [(path, value), (other, value')] t =
            assigned [(other, value'), (path, value)] t := by
  have hnull : Owns (heap.newRoot .null) heap.top (.null : JsonTree δ) [heap.top] := by
    refine ⟨.null nodes_newNode_top, List.nodup_singleton _, fun a hmem => ?_⟩
    exact List.mem_singleton.mp hmem ▸ Nat.lt_succ_self _
  obtain ⟨heap', footprint, hpaths, howns⟩ := hnull.assignPaths assignments
  obtain ⟨j, hnode⟩ := howns.holds.exists_node
  refine ⟨heap', j, footprint, _, rfl, hpaths, hnode, howns.holds, howns.holds.has, ?_,
    howns.holds.sorted, fun path value => ⟨JsonTree.at?_setPath_self .., ?_⟩⟩
  · intro ostream fuel hfuel
    exact howns.holds.str ostream hnode hfuel
  · intro other hapart hapart'
    exact ⟨JsonTree.at?_setPath_of_apart hapart hapart',
      fun value' => JsonTree.setPath_comm hapart hapart'⟩

end JsonHeap

end CppProjects
