import CppProjects.Json.Json

/-!
# The values `Json` holds

`Holds heap addr t footprint` says that the node at `addr` holds the tree `t` and
that `footprint` are the nodes and blocks it takes up.
-/

namespace CppProjects

variable {δ : Type}

namespace JsonTree

mutual

/-- What `Json::str` prints for a tree. -/
def str (ostream : δ → List Char) : JsonTree δ → List Char
  | .null => "null".toList
  | .bool value => if value then "true".toList else "false".toList
  | .int value => JsonText.showInt value
  | .double value => ostream value
  | .string text => JsonHeap.quoted text
  | .array elements => ['['] ++ JsonHeap.joined true (strElements ostream elements) ++ [']']
  | .object members => ['\x7b'] ++ JsonHeap.joined true (strMembers ostream members) ++ ['\x7d']

def strElements (ostream : δ → List Char) : List (JsonTree δ) → List (List Char)
  | [] => []
  | t :: elements => t.str ostream :: strElements ostream elements

def strMembers (ostream : δ → List Char) : List (List Char × JsonTree δ) → List (List Char)
  | [] => []
  | (name, t) :: members =>
      (JsonHeap.quoted name ++ ':' :: t.str ostream) :: strMembers ostream members

end

theorem strElements_eq_map (ostream : δ → List Char) (elements : List (JsonTree δ)) :
    strElements ostream elements = elements.map (str ostream) := by
  induction elements with
  | nil => rfl
  | cons t elements ih => rw [strElements, ih, List.map_cons]

theorem strMembers_eq_map (ostream : δ → List Char) (members : List (List Char × JsonTree δ)) :
    strMembers ostream members =
      members.map fun member => JsonHeap.quoted member.1 ++ ':' :: member.2.str ostream := by
  induction members with
  | nil => rfl
  | cons member members ih => rw [strMembers, ih, List.map_cons]

end JsonTree

namespace JsonHeap

/-- A part of a container: the name it has in an object, its node, the tree it holds
and what it takes up. -/
structure Cell (δ : Type) where
  name : List Char
  addr : ℕ
  tree : JsonTree δ
  footprint : List ℕ

inductive Holds (heap : JsonHeap δ) : ℕ → JsonTree δ → List ℕ → Prop
  | null {addr : ℕ} {payload : Payload δ} (hnode : heap.nodes addr = some ⟨.jsonNull, payload⟩) :
      Holds heap addr .null [addr]
  | bool {addr : ℕ} {value : Bool} (hnode : heap.nodes addr = some ⟨.jsonBool, .mBool value⟩) :
      Holds heap addr (.bool value) [addr]
  | int {addr : ℕ} {value : ℤ} (hnode : heap.nodes addr = some ⟨.jsonInt, .mInt value⟩) :
      Holds heap addr (.int value) [addr]
  | double {addr : ℕ} {value : δ} (hnode : heap.nodes addr = some ⟨.jsonDouble, .mDouble value⟩) :
      Holds heap addr (.double value) [addr]
  | string {addr p : ℕ} {text : List Char}
      (hnode : heap.nodes addr = some ⟨.jsonString, .mString p⟩)
      (hblock : heap.blocks p = some (.string text)) : Holds heap addr (.string text) [addr, p]
  | array {addr p capacity : ℕ} {cells : List (Cell δ)}
      (hnode : heap.nodes addr = some ⟨.jsonArray, .mArray p⟩)
      (hblock : heap.blocks p = some (.array (cells.map Cell.addr) capacity))
      (hcells : ∀ cell ∈ cells, Holds heap cell.addr cell.tree cell.footprint) :
      Holds heap addr (.array (cells.map Cell.tree)) (addr :: p :: cells.flatMap Cell.footprint)
  | object {addr p : ℕ} {cells : List (Cell δ)} {entries : OrderedMap (List Char) ℕ}
      (hnode : heap.nodes addr = some ⟨.jsonObject, .mObject p⟩)
      (hblock : heap.blocks p = some (.object entries))
      (hentries : entries.entries = cells.map fun cell => (cell.name, cell.addr))
      (hcells : ∀ cell ∈ cells, Holds heap cell.addr cell.tree cell.footprint) :
      Holds heap addr (.object (cells.map fun cell => (cell.name, cell.tree)))
        (addr :: p :: cells.flatMap Cell.footprint)

variable {heap heap' : JsonHeap δ} {addr : ℕ} {t : JsonTree δ} {footprint : List ℕ} {j : Json δ}

theorem Holds.mem (hholds : heap.Holds addr t footprint) : addr ∈ footprint := by
  cases hholds <;> exact List.mem_cons_self

theorem Holds.exists_node (hholds : heap.Holds addr t footprint) : ∃ j, heap.nodes addr = some j := by
  cases hholds <;> exact ⟨_, by assumption⟩

theorem footprint_subset {cell : Cell δ} {cells : List (Cell δ)} {first second : ℕ}
    (hmem : cell ∈ cells) : cell.footprint ⊆ first :: second :: cells.flatMap Cell.footprint := by
  intro a ha
  exact List.mem_cons_of_mem _ (List.mem_cons_of_mem _ (List.mem_flatMap.mpr ⟨cell, hmem, ha⟩))

/-- What a node holds depends on its footprint alone. -/
theorem Holds.congr (hholds : heap.Holds addr t footprint)
    (hnodes : ∀ a ∈ footprint, heap'.nodes a = heap.nodes a)
    (hblocks : ∀ a ∈ footprint, heap'.blocks a = heap.blocks a) : heap'.Holds addr t footprint := by
  induction hholds with
  | null hnode => exact .null ((hnodes _ (by simp)).trans hnode)
  | bool hnode => exact .bool ((hnodes _ (by simp)).trans hnode)
  | int hnode => exact .int ((hnodes _ (by simp)).trans hnode)
  | double hnode => exact .double ((hnodes _ (by simp)).trans hnode)
  | string hnode hblock =>
      exact .string ((hnodes _ (by simp)).trans hnode) ((hblocks _ (by simp)).trans hblock)
  | array hnode hblock _ ih =>
      refine .array ((hnodes _ (by simp)).trans hnode) ((hblocks _ (by simp)).trans hblock) ?_
      intro cell hmem
      exact ih cell hmem (fun a ha => hnodes a (footprint_subset hmem ha))
        fun a ha => hblocks a (footprint_subset hmem ha)
  | object hnode hblock hentries _ ih =>
      refine .object ((hnodes _ (by simp)).trans hnode) ((hblocks _ (by simp)).trans hblock) hentries ?_
      intro cell hmem
      exact ih cell hmem (fun a ha => hnodes a (footprint_subset hmem ha))
        fun a ha => hblocks a (footprint_subset hmem ha)

/-! ## What is printed -/

theorem length_le_flatMap {cell : Cell δ} {cells : List (Cell δ)} (hmem : cell ∈ cells) :
    cell.footprint.length ≤ (cells.flatMap Cell.footprint).length := by
  obtain ⟨before, after, rfl⟩ := List.append_of_mem hmem
  simp only [List.flatMap_append, List.flatMap_cons, List.length_append]
  omega

/-- `str` prints the tree a node holds. -/
theorem Holds.str (ostream : δ → List Char) (hholds : heap.Holds addr t footprint)
    (hnode : heap.nodes addr = some j) {fuel : ℕ} (hfuel : footprint.length ≤ fuel) :
    heap.str ostream fuel j = some (t.str ostream) := by
  induction hholds generalizing fuel j with
  | null hnode' =>
      obtain rfl := Option.some.inj (hnode.symm.trans hnode')
      obtain ⟨fuel, rfl⟩ := Nat.exists_eq_succ_of_ne_zero (Nat.ne_of_gt hfuel)
      rfl
  | bool hnode' =>
      obtain rfl := Option.some.inj (hnode.symm.trans hnode')
      obtain ⟨fuel, rfl⟩ := Nat.exists_eq_succ_of_ne_zero (Nat.ne_of_gt hfuel)
      rfl
  | int hnode' =>
      obtain rfl := Option.some.inj (hnode.symm.trans hnode')
      obtain ⟨fuel, rfl⟩ := Nat.exists_eq_succ_of_ne_zero (Nat.ne_of_gt hfuel)
      rfl
  | double hnode' =>
      obtain rfl := Option.some.inj (hnode.symm.trans hnode')
      obtain ⟨fuel, rfl⟩ := Nat.exists_eq_succ_of_ne_zero (Nat.ne_of_gt hfuel)
      rfl
  | string hnode' hblock =>
      obtain rfl := Option.some.inj (hnode.symm.trans hnode')
      obtain ⟨fuel, rfl⟩ := Nat.exists_eq_succ_of_ne_zero (Nat.ne_of_gt (Nat.lt_of_succ_le
        (Nat.le_of_succ_le hfuel)))
      simp [JsonHeap.str, Payload.mString?, JsonHeap.text?, hblock, JsonBlock.text?, JsonTree.str]
  | @array _ _ _ cells hnode' hblock hcells ih =>
      obtain rfl := Option.some.inj (hnode.symm.trans hnode')
      obtain ⟨fuel, rfl⟩ := Nat.exists_eq_succ_of_ne_zero
        (Nat.ne_of_gt (Nat.lt_of_lt_of_le (Nat.zero_lt_succ _) hfuel))
      have htexts : (cells.map Cell.addr).mapM (fun addr => (heap.nodes addr).bind fun element =>
          heap.str ostream fuel element) = some (cells.map fun cell => cell.tree.str ostream) := by
        rw [List.mapM_map]
        apply NodeHeap.mapM_eq_pure_map
        intro cell hmem
        obtain ⟨element, helement⟩ := (hcells cell hmem).exists_node
        have hlength := length_le_flatMap hmem
        simp only [List.length_cons] at hfuel
        rw [Function.comp_apply, helement]
        exact ih cell hmem helement (by omega)
      simp [JsonHeap.str, Payload.mArray?, JsonHeap.elements?, hblock, JsonBlock.elements?,
        JsonTree.str, JsonTree.strElements_eq_map, htexts, Function.comp_def]
  | @object _ _ cells entries hnode' hblock hentries hcells ih =>
      obtain rfl := Option.some.inj (hnode.symm.trans hnode')
      obtain ⟨fuel, rfl⟩ := Nat.exists_eq_succ_of_ne_zero
        (Nat.ne_of_gt (Nat.lt_of_lt_of_le (Nat.zero_lt_succ _) hfuel))
      have htexts : (cells.map fun cell => (cell.name, cell.addr)).mapM (fun entry =>
          (heap.nodes entry.2).bind fun value => (heap.str ostream fuel value).bind fun text =>
            some (quoted entry.1 ++ ':' :: text)) =
          some (cells.map fun cell => quoted cell.name ++ ':' :: cell.tree.str ostream) := by
        rw [List.mapM_map]
        apply NodeHeap.mapM_eq_pure_map
        intro cell hmem
        obtain ⟨value, hvalue⟩ := (hcells cell hmem).exists_node
        have hlength := length_le_flatMap hmem
        simp only [List.length_cons] at hfuel
        have htext : heap.str ostream fuel value = some (cell.tree.str ostream) :=
          ih cell hmem hvalue (by omega)
        simp [hvalue, htext]
      simp [JsonHeap.str, Payload.mObject?, JsonHeap.entries?, hblock, JsonBlock.entries?, hentries,
        JsonTree.str, JsonTree.strMembers_eq_map, htexts, Function.comp_def]

end JsonHeap

end CppProjects
