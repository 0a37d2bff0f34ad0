import CppProjects.Core.TransitionSystem
import CppProjects.Json.JsonSteps

/-!
# Runs of `Json` calls

A step is a call on a node that is there, where `append` and `operator[]` are the steps
they are made of.  Addresses stay fresh, and no node gets into two containers.
-/

namespace CppProjects

variable {δ : Type}

namespace JsonHeap

/-- The calls that change nothing. -/
inductive Observer
  | size
  | begin
  | finish
  | str
  | toBool
  | toInt
  | toDouble
  | toString
  | hasIndex
  | hasKey
  | equals (other : ℕ)

inductive Action (δ : Type)
  /-- `Json()` and `Json(Type)`. -/
  | construct (type : JsonType)
  /-- `Json(bool)`, `Json(int)`, `Json(double)`, `Json(const string &)`. -/
  | constructFrom (value : Scalar δ)
  | copyConstruct (other : ℕ)
  | assign (this : ℕ) (value : Scalar δ)
  | assignJson (this other : ℕ)
  /-- The two steps of `append`. -/
  | adopt (this : ℕ)
  | push (this other : ℕ)
  /-- The steps of `operator[](int)`. -/
  | becomeArray (this : ℕ)
  | pushNull (this : ℕ)
  /-- The steps of `operator[](const string &)`. -/
  | becomeObject (this : ℕ)
  | entry (this : ℕ) (key : List Char)
  | observe (this : ℕ) (observer : Observer)

section Steps

variable [Zero δ] (storage : Storage)

def step (heap : JsonHeap δ) : Action δ → Option (JsonHeap δ)
  | .construct type => some (heap.ofType type)
  | .constructFrom value => some (heap.ofScalar value)
  | .copyConstruct other => heap.copyConstruct storage other
  | .assign this value => heap.assign this value
  | .assignJson this other => heap.assignJson storage this other
  | .adopt this => heap.adopt this
  | .push this other => do
      let value ← heap.nodes other
      heap.pushBack storage this value
  | .becomeArray this => heap.becomeArray this
  | .pushNull this => heap.pushBack storage this .null
  | .becomeObject this => heap.becomeObject this
  | .entry this key => (heap.entry this key).map Prod.fst
  | .observe this _ => do
      let _ ← heap.nodes this
      some heap

def system : TransitionSystem (JsonHeap δ) (Action δ) where
  initial heap := heap = NodeHeap.empty
  step := step storage

variable {storage} {heap heap' : JsonHeap δ}

/-! ## The member functions are such steps -/

theorem append_eq_execute (this other : ℕ) : heap.append storage this other =
    (system storage).execute heap [.adopt this, .push this other] := by
  rw [TransitionSystem.execute_cons]
  calc heap.append storage this other
      = (heap.adopt this).bind fun heap => (system storage).step heap (.push this other) := rfl
    _ = _ := by simp only [TransitionSystem.execute_singleton]; rfl

theorem pushNulls_eq_execute (this count : ℕ) : pushNulls storage this count heap =
    (system storage).execute heap (List.replicate count (.pushNull this)) := by
  induction count generalizing heap with
  | zero => rfl
  | succ count ih =>
      rw [pushNulls, List.replicate_succ, TransitionSystem.execute_cons]
      change (heap.pushBack storage this .null).bind _ = (heap.pushBack storage this .null).bind _
      congr 1
      funext pushed
      exact ih

theorem indexKey_eq_execute (this : ℕ) (key : List Char) : (heap.indexKey this key).map Prod.fst =
    (system storage).execute heap [.becomeObject this, .entry this key] := by
  rw [TransitionSystem.execute_cons]
  calc (heap.indexKey this key).map Prod.fst
      = (heap.becomeObject this).bind fun heap => (system storage).step heap (.entry this key) :=
        Option.map_bind
    _ = _ := by simp only [TransitionSystem.execute_singleton]; rfl

/-- `operator[](int)` pushes nulls until the index is there. -/
theorem index_eq_some {this : ℕ} {i : ℤ} {addr : Option ℕ}
    (hindex : heap.index storage this i = some (heap', addr)) : ∃ count,
      (system storage).execute heap (.becomeArray this :: List.replicate count (.pushNull this)) =
        some heap' := by
  obtain ⟨array, harray, hrest⟩ := Option.bind_eq_some_iff.mp hindex
  have hexecute : ∀ count, (system storage).execute heap
      (.becomeArray this :: List.replicate count (.pushNull this)) =
        pushNulls storage this count array := by
    intro count
    rw [TransitionSystem.execute_cons, pushNulls_eq_execute]
    change (heap.becomeArray this).bind _ = _
    rw [harray, Option.bind_some]
  split_ifs at hrest with hnegative
  · refine ⟨0, (hexecute 0).trans ?_⟩
    cases hrest
    rfl
  · obtain ⟨j, -, hrest⟩ := Option.bind_eq_some_iff.mp hrest
    obtain ⟨p, -, hrest⟩ := Option.bind_eq_some_iff.mp hrest
    obtain ⟨elements, -, hrest⟩ := Option.bind_eq_some_iff.mp hrest
    obtain ⟨pushed, hpushed, hrest⟩ := Option.bind_eq_some_iff.mp hrest
    obtain ⟨elements', -, hrest⟩ := Option.bind_eq_some_iff.mp hrest
    obtain ⟨found, -, hsome⟩ := Option.bind_eq_some_iff.mp hrest
    cases hsome
    exact ⟨_, (hexecute _).trans hpushed⟩

end Steps

/-- After `Json(true)`. -/
def trueHeap : JsonHeap ℕ := ofScalar NodeHeap.empty (.bool true)

theorem reachable_trueHeap (storage : Storage) : (system storage).Reachable trueHeap := by
  have hstep : (system storage).step (NodeHeap.empty : JsonHeap ℕ) (.constructFrom (.bool true)) =
      some trueHeap := rfl
  exact (TransitionSystem.Reachable.initial rfl).step hstep

/-! ## Every reachable heap is well scoped -/

open NodeHeap

variable {storage : Storage} {heap heap' : JsonHeap δ} {this other p : ℕ} {j : Json δ}

/-- A new block without nodes, and a node that points to it. -/
theorem Scoped.newBlock_setNode (hscoped : heap.Scoped) {block : JsonBlock}
    (hempty : children block = []) (hlive : (heap.nodes this).isSome) {value : Json δ}
    (hpointers : ∀ p ∈ pointers value, p = heap.top) :
    ((heap.newBlock block).setNode this value).Scoped := by
  have hnone : ∀ addr, addr ∉ children block := fun addr => by simp [hempty]
  have hblock : (heap.newBlock block).Scoped :=
    hscoped.newBlock (by simp [hempty]) (fun addr hmem => absurd hmem (hnone addr))
      (fun addr hmem => absurd hmem (hnone addr)) fun addr _ => hnone addr
  refine hblock.setNode hlive fun p hmem => ?_
  rw [hpointers p hmem]
  exact Nat.lt_succ_self _

theorem Scoped.newBlock_newRoot (hscoped : heap.Scoped) {block : JsonBlock}
    (hempty : children block = []) {value : Json δ} (hpointers : ∀ p ∈ pointers value, p = heap.top) :
    ((heap.newBlock block).newRoot value).Scoped := by
  have hnone : ∀ addr, addr ∉ children block := fun addr => by simp [hempty]
  have hblock : (heap.newBlock block).Scoped :=
    hscoped.newBlock (by simp [hempty]) (fun addr hmem => absurd hmem (hnone addr))
      (fun addr hmem => absurd hmem (hnone addr)) fun addr _ => hnone addr
  refine hblock.newRoot fun p hmem => ?_
  rw [hpointers p hmem]
  exact Nat.lt_succ_self _

theorem Scoped.clear (hscoped : heap.Scoped) (hclear : heap.clear this = some heap') : heap'.Scoped := by
  obtain ⟨j, hnode, ⟨p, block, -, -, -, hblock, hlive, rfl⟩ | ⟨-, rfl⟩⟩ := clear_cases hclear
  · exact (hscoped.drop hblock).setNode hlive fun p hmem => nomatch hmem
  · exact hscoped.setNode (Option.isSome_of_eq_some hnode)
      fun p hmem => hscoped.pointers_lt ⟨j, hnode, hmem⟩

theorem isSome_of_clear (hclear : heap.clear this = some heap') : (heap'.nodes this).isSome := by
  obtain ⟨j, -, ⟨p, block, -, -, -, -, -, rfl⟩ | ⟨-, rfl⟩⟩ := clear_cases hclear
  · exact Option.isSome_of_eq_some nodes_setNode_self
  · exact Option.isSome_of_eq_some nodes_setNode_self

theorem Scoped.ofScalar (hscoped : heap.Scoped) (value : Scalar δ) : (heap.ofScalar value).Scoped := by
  cases value with
  | bool value => exact hscoped.newRoot fun p hmem => nomatch hmem
  | int value => exact hscoped.newRoot fun p hmem => nomatch hmem
  | double value => exact hscoped.newRoot fun p hmem => nomatch hmem
  | string text => exact Scoped.newBlock_newRoot hscoped rfl fun p hmem => List.mem_singleton.mp hmem

theorem Scoped.ofType [Zero δ] (hscoped : heap.Scoped) (type : JsonType) : (heap.ofType type).Scoped := by
  cases type with
  | jsonString => exact Scoped.newBlock_newRoot hscoped rfl fun p hmem => List.mem_singleton.mp hmem
  | jsonArray => exact Scoped.newBlock_newRoot hscoped rfl fun p hmem => List.mem_singleton.mp hmem
  | jsonObject => exact Scoped.newBlock_newRoot hscoped rfl fun p hmem => List.mem_singleton.mp hmem
  | _ => exact hscoped.newRoot fun p hmem => nomatch hmem

theorem Scoped.copyConstruct (hscoped : heap.Scoped)
    (hcopy : heap.copyConstruct storage other = some heap') : heap'.Scoped := by
  obtain ⟨source, hsource, hrest⟩ := Option.bind_eq_some_iff.mp hcopy
  obtain ⟨copy, hcopied, hroot⟩ := Option.bind_eq_some_iff.mp hrest
  obtain rfl := Option.some.inj hroot
  exact hscoped.newRoot fun p hmem => hscoped.pointers_lt ⟨source, hsource, Json.pointers_copied hcopied hmem⟩

theorem Scoped.clearUnless (hscoped : heap.Scoped) {type : JsonType}
    (hclear : heap.clearUnless this type = some heap') : heap'.Scoped := by
  obtain ⟨j, -, ⟨-, rfl⟩ | ⟨-, hcleared⟩⟩ := clearUnless_cases hclear
  · exact hscoped
  · exact Scoped.clear hscoped hcleared

theorem Scoped.assign (hscoped : heap.Scoped) {value : Scalar δ}
    (hassign : heap.assign this value = some heap') : heap'.Scoped := by
  have hvalue : ∀ {value : Json δ}, pointers value = [] → heap.assignValue this value = some heap' →
      heap'.Scoped := by
    intro value hnil hassign
    obtain ⟨cleared, hclear, hlive, rfl⟩ := assignValue_eq_some hassign
    exact (Scoped.clearUnless hscoped hclear).setNode hlive fun p hmem => by simp [hnil] at hmem
  cases value with
  | bool value => exact hvalue rfl hassign
  | int value => exact hvalue rfl hassign
  | double value => exact hvalue rfl hassign
  | string text =>
      obtain ⟨j, hnode, ⟨p, old, -, -, hblock, rfl⟩ | ⟨cleared, -, hclear, hlive, rfl⟩⟩ :=
        assign_string_cases hassign
      · exact hscoped.setBlock (hscoped.blocks_lt hblock) List.nodup_nil
          (fun addr hmem => nomatch hmem) (fun addr hmem => nomatch hmem) fun addr _ hmem => nomatch hmem
      · exact Scoped.newBlock_setNode (Scoped.clear hscoped hclear) rfl hlive
          fun p hmem => List.mem_singleton.mp hmem

/-! ### Copies -/

/-- The sources of copies are live, so the copies point nowhere new. -/
theorem CopiesOf.pointers_lt {start : ℕ} {addrs : List ℕ} {copies : List (Json δ)}
    (hcopies : CopiesOf storage heap start addrs copies) (hscoped : heap.Scoped) :
    ∀ copy ∈ copies, ∀ p ∈ pointers copy, p < heap.top := by
  intro copy hmem p hp
  obtain ⟨i, hi⟩ := List.mem_iff_getElem?.mp hmem
  have hlt : i < addrs.length := hcopies.1 ▸ (List.getElem?_eq_some_iff.mp hi).1
  obtain ⟨source, hsource, hcopied⟩ := hcopies.2 i addrs[i] copy (List.getElem?_eq_getElem hlt) hi
  exact hscoped.pointers_lt ⟨source, hsource, Json.pointers_copied hcopied hp⟩

theorem Scoped.children_lt (hscoped : heap.Scoped) {block : JsonBlock}
    (hblock : heap.blocks p = some block) : ∀ addr ∈ children block, addr < heap.top :=
  fun _ hmem => hscoped.contains_lt ⟨block, hblock, hmem⟩

theorem children_replica {source value : Json δ} {q : ℕ} {block block' : JsonBlock} {copies : List ℕ}
    (hreplica : Replica source p block copies block' q value)
    (hlength : copies.length = (children block).length) : children block' = copies := by
  cases hreplica with
  | array => rfl
  | @object _ _ entries =>
      apply List.map_snd_zip
      rw [List.length_map, hlength]
      exact Nat.le_of_eq (List.length_map ..)

theorem pointers_replica {source value : Json δ} {q : ℕ} {block block' : JsonBlock} {copies : List ℕ}
    (hreplica : Replica source p block copies block' q value) : pointers value = [q] := by
  cases hreplica <;> rfl

theorem Scoped.prepared (hscoped : heap.Scoped) {ready : JsonHeap δ}
    (hprepared : heap.prepared this other = some ready) : ready.Scoped := by
  obtain ⟨cleared, old, source, hclear, hold, -, rfl⟩ := prepared_eq_some hprepared
  exact (Scoped.clear hscoped hclear).setNode (Option.isSome_of_eq_some hold)
    fun p hmem => (Scoped.clear hscoped hclear).pointers_lt ⟨old, hold, hmem⟩

/-- New nodes, and a block that holds them all. -/
theorem Scoped.newNodes_newBlock (hscoped : heap.Scoped) {copies : List (Json δ)}
    (hpointers : ∀ copy ∈ copies, ∀ p ∈ pointers copy, p < heap.top) {block : JsonBlock}
    (hchildren : children block = List.range' heap.top copies.length) :
    ((heap.newNodes copies).newBlock block).Scoped := by
  have hmem : ∀ {addr}, addr ∈ children block → ∃ i < copies.length, addr = heap.top + i := by
    intro addr haddr
    rw [hchildren] at haddr
    obtain ⟨i, hi, rfl⟩ := List.mem_range'.mp haddr
    exact ⟨i, hi, by rw [Nat.one_mul]⟩
  refine (hscoped.newNodes hpointers).newBlock ?_ ?_ ?_ ?_
  · rw [hchildren]
    exact List.nodup_range'
  · intro addr haddr
    obtain ⟨i, hi, rfl⟩ := hmem haddr
    rw [nodes_newNodes_add hi, List.getElem?_eq_getElem hi]
    rfl
  · intro addr haddr q hcontains
    obtain ⟨i, hi, rfl⟩ := hmem haddr
    obtain ⟨other, hother, hin⟩ := hcontains
    rw [blocks_newNodes] at hother
    exact absurd (hscoped.contains_lt ⟨other, hother, hin⟩) (Nat.not_lt.mpr (Nat.le_add_right _ _))
  · intro addr hroot haddr
    obtain ⟨i, hi, rfl⟩ := hmem haddr
    rw [roots_newNodes] at hroot
    obtain ⟨node, hnode⟩ := Option.isSome_iff_exists.mp (hscoped.roots_live _ hroot)
    exact absurd (hscoped.nodes_lt hnode) (Nat.not_lt.mpr (Nat.le_add_right _ _))

theorem Scoped.assignJson (hscoped : heap.Scoped)
    (hassign : heap.assignJson storage this other = some heap') : heap'.Scoped := by
  rcases assignJson_cases hassign with ⟨-, rfl⟩ | ⟨ready, source, -, hprepared, hsource, hcases⟩
  · exact hscoped
  have hready := Scoped.prepared hscoped hprepared
  have hlive : (ready.nodes this).isSome := by
    obtain ⟨cleared, old, source, -, -, -, rfl⟩ := prepared_eq_some hprepared
    exact Option.isSome_of_eq_some nodes_setNode_self
  rcases hcases with ⟨-, rfl⟩ | ⟨-, -, rfl⟩ | ⟨p, text, -, -, rfl⟩ |
    ⟨p, block, block', copied, value, hblock, hcopied, hreplica, rfl⟩
  · exact hready
  · exact hready.setNode hlive fun p hmem => hready.pointers_lt ⟨source, hsource, hmem⟩
  · exact Scoped.newBlock_setNode hready rfl hlive fun p hmem => List.mem_singleton.mp hmem
  · obtain ⟨copies, hcopies, rfl⟩ := copyAll_eq_some hcopied (Scoped.children_lt hready hblock)
    have hchildren : children block' = List.range' ready.top copies.length := by
      rw [children_replica hreplica (List.length_range' ..), hcopies.1]
    have hnew := Scoped.newNodes_newBlock hready (hcopies.pointers_lt hready) hchildren
    refine hnew.setNode ?_ fun q hmem => ?_
    · obtain ⟨node, hnode⟩ := Option.isSome_iff_exists.mp hlive
      exact Option.isSome_of_eq_some ((nodes_newNodes_of_lt (hready.nodes_lt hnode)).trans hnode)
    · rw [pointers_replica hreplica] at hmem
      obtain rfl := List.mem_singleton.mp hmem
      exact Nat.lt_succ_self _

/-- The new nodes of a container that had only some of them. -/
theorem Scoped.setBlock_of_new (hscoped : heap.Scoped) {block old : JsonBlock}
    (hold : heap.blocks p = some old) (hnodup : (children block).Nodup) {bound : ℕ}
    (hmem : ∀ addr ∈ children block, addr ∈ children old ∨ (bound ≤ addr ∧ (heap.nodes addr).isSome))
    (hbound : ∀ q addr, heap.Contains q addr → addr < bound) (hroots : ∀ addr ∈ heap.roots, addr < bound) :
    (heap.setBlock p block).Scoped := by
  refine hscoped.setBlock (hscoped.blocks_lt hold) hnodup ?_ ?_ ?_
  · intro addr haddr
    rcases hmem addr haddr with hin | ⟨-, hlive⟩
    · exact hscoped.live ⟨old, hold, hin⟩
    · exact hlive
  · intro addr haddr q hcontains
    rcases hmem addr haddr with hin | ⟨hle, -⟩
    · exact hscoped.apart hcontains ⟨old, hold, hin⟩
    · exact absurd (hbound q addr hcontains) (Nat.not_lt.mpr hle)
  · intro addr hroot haddr
    rcases hmem addr haddr with hin | ⟨hle, -⟩
    · exact hscoped.roots_apart addr hroot p ⟨old, hold, hin⟩
    · exact absurd (hroots addr hroot) (Nat.not_lt.mpr hle)

theorem Scoped.roots_lt (hscoped : heap.Scoped) : ∀ addr ∈ heap.roots, addr < heap.top := by
  intro addr hmem
  obtain ⟨node, hnode⟩ := Option.isSome_iff_exists.mp (hscoped.roots_live addr hmem)
  exact hscoped.nodes_lt hnode

theorem Scoped.pushBack (hscoped : heap.Scoped) {value : Json δ}
    (hvalue : ∀ p ∈ pointers value, p < heap.top)
    (hpush : heap.pushBack storage this value = some heap') : heap'.Scoped := by
  obtain ⟨j, p, elements, capacity, copy, -, -, hblock, hcopied, hcases⟩ := pushBack_cases hpush
  have hcopy : ∀ q ∈ pointers copy, q < heap.top := fun q hq => hvalue q (Json.pointers_copied hcopied hq)
  have hpushed : (heap.newNode copy).Scoped := hscoped.newNode hcopy
  have helements : ∀ addr ∈ elements, addr < heap.top := Scoped.children_lt hscoped hblock
  have hbound : ∀ q addr, heap.Contains q addr → addr < heap.top := fun q addr => hscoped.contains_lt
  have hnodup : elements.Nodup := hscoped.nodup hblock
  rcases hcases with ⟨-, rfl⟩ | ⟨moved, capacity', -, hmoved, rfl⟩
  · refine Scoped.setBlock_of_new hpushed hblock ?_ ?_ hbound (Scoped.roots_lt hscoped)
    · refine List.nodup_append.mpr ⟨hnodup, List.nodup_singleton _, ?_⟩
      intro first hfirst second hsecond
      rw [List.mem_singleton.mp hsecond]
      exact (helements first hfirst).ne
    · intro addr haddr
      rcases List.mem_append.mp haddr with hin | hnew
      · exact Or.inl hin
      · obtain rfl := List.mem_singleton.mp hnew
        exact Or.inr ⟨Nat.le_refl _, Option.isSome_of_eq_some nodes_newNode_top⟩
  · obtain ⟨copies, hcopies, rfl⟩ := copyAll_eq_some hmoved
      fun addr hmem => Nat.lt_succ_of_lt (helements addr hmem)
    have hmovedScoped := hpushed.newNodes (hcopies.pointers_lt hpushed)
    have hlength : copies.length = elements.length := hcopies.1
    have hlive : ∀ addr ∈ List.range' (heap.top + 1) elements.length ++ [heap.top], heap.top ≤ addr ∧
        (((heap.newNode copy).newNodes copies).nodes addr).isSome := by
      intro addr haddr
      rcases List.mem_append.mp haddr with hmem | hmem
      · obtain ⟨i, hi, rfl⟩ := List.mem_range'.mp hmem
        refine ⟨by omega, ?_⟩
        have hi' : i < copies.length := by rwa [hlength]
        have hget : ((heap.newNode copy).newNodes copies).nodes (heap.top + 1 + i) = copies[i]? :=
          nodes_newNodes_add hi'
        rw [Nat.one_mul]
        exact Option.isSome_of_eq_some (hget.trans (List.getElem?_eq_getElem hi'))
      · obtain rfl := List.mem_singleton.mp hmem
        refine ⟨Nat.le_refl _, ?_⟩
        rw [nodes_newNodes_of_lt (Nat.lt_succ_self _), nodes_newNode_top]
        rfl
    have hblock' : ((heap.newNode copy).newNodes copies).blocks p = some (.array elements capacity) := by
      rw [blocks_newNodes]
      exact hblock
    have hfresh : (List.range' (heap.top + 1) elements.length ++ [heap.top]).Nodup := by
      refine List.nodup_append.mpr ⟨List.nodup_range', List.nodup_singleton _, ?_⟩
      intro first hfirst second hsecond
      obtain ⟨i, -, rfl⟩ := List.mem_range'.mp hfirst
      rw [List.mem_singleton.mp hsecond]
      omega
    have hroots : ∀ addr ∈ ((heap.newNode copy).newNodes copies).roots, addr < heap.top := by
      rw [roots_newNodes]
      exact Scoped.roots_lt hscoped
    have hcontains : ∀ q addr, ((heap.newNode copy).newNodes copies).Contains q addr → addr < heap.top := by
      rintro q addr ⟨other, hother, hin⟩
      rw [blocks_newNodes] at hother
      exact hbound q addr ⟨other, hother, hin⟩
    have hstored : (((heap.newNode copy).newNodes copies).setBlock p
        (.array (List.range' (heap.top + 1) elements.length ++ [heap.top]) capacity')).Scoped :=
      Scoped.setBlock_of_new hmovedScoped hblock' hfresh (fun addr haddr => Or.inr (hlive addr haddr))
        hcontains hroots
    refine hstored.discard ?_ ?_
    · intro addr hmem q hin
      rcases contains_setBlock hin with ⟨rfl, hnew⟩ | ⟨hne, hold⟩
      · exact absurd (hlive addr hnew).1 (Nat.not_le.mpr (helements addr hmem))
      · obtain ⟨other, hother, hin⟩ := hold
        rw [blocks_newNodes] at hother
        exact hne (hscoped.apart ⟨other, hother, hin⟩ ⟨_, hblock, hmem⟩)
    · intro addr hroot hmem
      change addr ∈ ((heap.newNode copy).newNodes copies).roots at hroot
      rw [roots_newNodes] at hroot
      exact hscoped.roots_apart addr hroot p ⟨_, hblock, hmem⟩

theorem Scoped.adopt (hscoped : heap.Scoped) (hadopt : heap.adopt this = some heap') : heap'.Scoped := by
  obtain ⟨j, hnode, ⟨-, rfl⟩ | ⟨-, rfl⟩⟩ := adopt_cases hadopt
  · exact hscoped
  · exact Scoped.newBlock_setNode hscoped rfl (Option.isSome_of_eq_some hnode)
      fun p hmem => List.mem_singleton.mp hmem

theorem Scoped.entry (hscoped : heap.Scoped) {key : List Char} {addr : ℕ}
    (hentry : heap.entry this key = some (heap', addr)) : heap'.Scoped := by
  obtain ⟨j, p, entries, -, -, hblock, ⟨-, rfl⟩ | ⟨hnone, -, rfl⟩⟩ := entry_cases hentry
  · exact hscoped
  · have hpushed : (heap.newNode Json.null).Scoped := hscoped.newNode fun p hmem => nomatch hmem
    obtain ⟨before, after, hentries, hinsert⟩ := OrderedMap.entries_insert_of_none hnone heap.top
    have hold : children (JsonBlock.object entries) = before.map Prod.snd ++ after.map Prod.snd := by
      change entries.entries.map Prod.snd = _
      rw [hentries, List.map_append]
    have hperm : (children (JsonBlock.object (entries.insert key heap.top))).Perm
        (heap.top :: children (JsonBlock.object entries)) := by
      change ((entries.insert key heap.top).entries.map Prod.snd).Perm _
      rw [hold, hinsert, List.map_append, List.map_cons]
      exact List.perm_middle
    refine Scoped.setBlock_of_new hpushed hblock ?_ ?_ (fun q addr => hscoped.contains_lt)
      (Scoped.roots_lt hscoped)
    · refine hperm.nodup_iff.mpr (List.nodup_cons.mpr ⟨fun hmem => ?_, hscoped.nodup hblock⟩)
      exact Nat.lt_irrefl _ (Scoped.children_lt hscoped hblock heap.top hmem)
    · intro addr haddr
      rcases List.mem_cons.mp (hperm.mem_iff.mp haddr) with rfl | hin
      · exact Or.inr ⟨Nat.le_refl _, Option.isSome_of_eq_some nodes_newNode_top⟩
      · exact Or.inl hin

theorem Scoped.step [Zero δ] {a : Action δ} (hscoped : heap.Scoped) (hstep : step storage heap a = some heap') :
    heap'.Scoped := by
  cases a with
  | construct type =>
      obtain rfl := Option.some.inj hstep
      exact Scoped.ofType hscoped type
  | constructFrom value =>
      obtain rfl := Option.some.inj hstep
      exact Scoped.ofScalar hscoped value
  | copyConstruct other => exact Scoped.copyConstruct hscoped hstep
  | assign this value => exact Scoped.assign hscoped hstep
  | assignJson this other => exact Scoped.assignJson hscoped hstep
  | adopt this => exact Scoped.adopt hscoped hstep
  | push this other =>
      obtain ⟨value, hvalue, hpush⟩ := Option.bind_eq_some_iff.mp hstep
      exact Scoped.pushBack hscoped (fun p hmem => hscoped.pointers_lt ⟨value, hvalue, hmem⟩) hpush
  | becomeArray this =>
      obtain ⟨j, -, ⟨-, rfl⟩ | ⟨cleared, -, hclear, rfl⟩⟩ := becomeArray_cases hstep
      · exact hscoped
      · exact Scoped.newBlock_setNode (Scoped.clear hscoped hclear) rfl (isSome_of_clear hclear)
          fun p hmem => List.mem_singleton.mp hmem
  | pushNull this =>
      exact Scoped.pushBack hscoped (fun p hmem => absurd hmem List.not_mem_nil) hstep
  | becomeObject this =>
      obtain ⟨j, -, ⟨-, rfl⟩ | ⟨cleared, -, hclear, rfl⟩⟩ := becomeObject_cases hstep
      · exact hscoped
      · exact Scoped.newBlock_setNode (Scoped.clear hscoped hclear) rfl (isSome_of_clear hclear)
          fun p hmem => List.mem_singleton.mp hmem
  | entry this key =>
      obtain ⟨⟨final, addr⟩, hentry, rfl⟩ := Option.map_eq_some_iff.mp hstep
      exact Scoped.entry hscoped hentry
  | observe this observer =>
      obtain ⟨j, -, hsame⟩ := Option.bind_eq_some_iff.mp hstep
      obtain rfl := Option.some.inj hsame
      exact hscoped

theorem scoped_of_reachable [Zero δ] (hreach : (system storage).Reachable heap) : heap.Scoped :=
  hreach.invariant (P := NodeHeap.Scoped) (fun _ hinitial => hinitial ▸ scoped_empty)
    fun _ _ _ hscoped hstep => Scoped.step hscoped hstep

end JsonHeap

end CppProjects
