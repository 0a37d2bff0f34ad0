import CppProjects.Json.JsonSteps

/-!
# What `Json::str` looks at

`str` looks at the block a tag stands for and goes on to the nodes in it.  What it
prints depends on these nodes and blocks alone, and it does not return from a value
that lies within itself.
-/

namespace CppProjects

variable {δ : Type}

/-- The block that the tag stands for. -/
def Json.block? : Json δ → Option ℕ
  | ⟨.jsonString, .mString p⟩ | ⟨.jsonArray, .mArray p⟩ | ⟨.jsonObject, .mObject p⟩ => some p
  | _ => none

namespace JsonHeap

/-- The nodes in the container that a value is. -/
def contents (heap : JsonHeap δ) : Json δ → List ℕ
  | ⟨.jsonArray, .mArray p⟩ | ⟨.jsonObject, .mObject p⟩ => (heap.blocks p).elim [] JsonBlock.children
  | _ => []

/-- The nodes in the container behind a node. -/
def elementsOf (heap : JsonHeap δ) (addr : ℕ) : List ℕ := (heap.nodes addr).elim [] heap.contents

/-- The node at an address lies within a value. -/
inductive Below (heap : JsonHeap δ) (j : Json δ) : ℕ → Prop
  | direct {addr : ℕ} (hmem : addr ∈ heap.contents j) : Below heap j addr
  | deeper {addr addr' : ℕ} (hbelow : Below heap j addr) (hmem : addr' ∈ heap.elementsOf addr) :
      Below heap j addr'

/-- `j'` is the value itself or lies within it. -/
def Part (heap : JsonHeap δ) (j j' : Json δ) : Prop :=
  j' = j ∨ ∃ addr, heap.Below j addr ∧ heap.nodes addr = some j'

/-- `str` returns `text`. -/
def Prints (heap : JsonHeap δ) (ostream : δ → List Char) (j : Json δ) (text : List Char) : Prop :=
  ∃ fuel, heap.str ostream fuel j = some text

variable {heap heap' : JsonHeap δ} {ostream : δ → List Char} {addr addr' p : ℕ} {j j' : Json δ}
  {text : List Char} {fuel : ℕ}

theorem elementsOf_eq (hnode : heap.nodes addr = some j) : heap.elementsOf addr = heap.contents j := by
  rw [elementsOf, hnode, Option.elim_some]

/-- The contents are those of the block the tag stands for. -/
theorem mem_contents (hmem : addr ∈ heap.contents j) :
    ∃ p, j.block? = some p ∧ heap.Contains p addr := by
  have hblock : ∀ {p}, addr ∈ (heap.blocks p).elim [] JsonBlock.children → heap.Contains p addr := by
    intro p hmem
    cases hblock : heap.blocks p with
    | none =>
        rw [hblock] at hmem
        cases hmem
    | some block =>
        rw [hblock] at hmem
        exact ⟨block, hblock, hmem⟩
  obtain ⟨type, payload⟩ := j
  cases type with
  | jsonArray =>
      cases payload with
      | mArray p => exact ⟨p, rfl, hblock hmem⟩
      | _ => cases hmem
  | jsonObject =>
      cases payload with
      | mObject p => exact ⟨p, rfl, hblock hmem⟩
      | _ => cases hmem
  | _ => cases hmem

theorem contents_congr (hblock : ∀ p, j.block? = some p → heap'.blocks p = heap.blocks p) :
    heap'.contents j = heap.contents j := by
  obtain ⟨type, payload⟩ := j
  cases type with
  | jsonArray =>
      cases payload with
      | mArray p => exact congrArg (fun block => block.elim [] JsonBlock.children) (hblock p rfl)
      | _ => rfl
  | jsonObject =>
      cases payload with
      | mObject p => exact congrArg (fun block => block.elim [] JsonBlock.children) (hblock p rfl)
      | _ => rfl
  | _ => rfl

/-! ## What is printed depends on the parts -/

/-- What is printed for the node at an address. -/
def strAt (heap : JsonHeap δ) (ostream : δ → List Char) (fuel addr : ℕ) : Option (List Char) :=
  (heap.nodes addr).bind (heap.str ostream fuel)

theorem str_array : heap.str ostream (fuel + 1) ⟨.jsonArray, .mArray p⟩ =
    (heap.elements? p).bind fun found => (found.1.mapM (heap.strAt ostream fuel)).bind fun texts =>
      some (['['] ++ joined true texts ++ [']']) := rfl

theorem str_object : heap.str ostream (fuel + 1) ⟨.jsonObject, .mObject p⟩ =
    (heap.entries? p).bind fun entries =>
      (entries.entries.mapM fun entry => (heap.strAt ostream fuel entry.2).bind fun text =>
        some (quoted entry.1 ++ ':' :: text)).bind fun texts =>
      some (['\x7b'] ++ joined true texts ++ ['\x7d']) := by
  have hentry : ∀ entry : List Char × ℕ, ((heap.strAt ostream fuel entry.2).bind fun text =>
      some (quoted entry.1 ++ ':' :: text)) = (heap.nodes entry.2).bind fun value =>
        (heap.str ostream fuel value).bind fun text => some (quoted entry.1 ++ ':' :: text) :=
    fun entry => Option.bind_assoc ..
  simp only [hentry]
  rfl

theorem contents_array {elements : List ℕ} {capacity : ℕ}
    (hblock : heap.blocks p = some (.array elements capacity)) :
    heap.contents ⟨.jsonArray, .mArray p⟩ = elements :=
  congrArg (fun block => block.elim [] JsonBlock.children) hblock

theorem contents_object {entries : OrderedMap (List Char) ℕ}
    (hblock : heap.blocks p = some (.object entries)) :
    heap.contents ⟨.jsonObject, .mObject p⟩ = entries.entries.map Prod.snd :=
  congrArg (fun block => block.elim [] JsonBlock.children) hblock

/-- One level of `str` depends on the block and on what is printed for the contents. -/
theorem str_succ_congr (hblock : ∀ p, j.block? = some p → heap'.blocks p = heap.blocks p)
    (hcontents : ∀ addr ∈ heap.contents j, heap'.strAt ostream fuel addr = heap.strAt ostream fuel addr) :
    heap'.str ostream (fuel + 1) j = heap.str ostream (fuel + 1) j := by
  obtain ⟨type, payload⟩ := j
  cases type with
  | jsonString =>
      cases payload with
      | mString p =>
          have htext : heap'.text? p = heap.text? p := congrArg (Option.bind · _) (hblock p rfl)
          change (heap'.text? p).bind _ = (heap.text? p).bind _
          rw [htext]
      | _ => rfl
  | jsonArray =>
      cases payload with
      | mArray p =>
          have hfound : heap'.elements? p = heap.elements? p := congrArg (Option.bind · _) (hblock p rfl)
          rw [str_array, str_array, hfound]
          cases helements : heap.elements? p with
          | none => rfl
          | some found =>
              rw [contents_array (elements?_eq_some helements)] at hcontents
              rw [Option.bind_some, Option.bind_some, NodeHeap.mapM_congr hcontents]
      | _ => rfl
  | jsonObject =>
      cases payload with
      | mObject p =>
          have hfound : heap'.entries? p = heap.entries? p := congrArg (Option.bind · _) (hblock p rfl)
          rw [str_object, str_object, hfound]
          cases hentries : heap.entries? p with
          | none => rfl
          | some entries =>
              rw [contents_object (entries?_eq_some hentries)] at hcontents
              rw [Option.bind_some, Option.bind_some]
              congr 1
              apply NodeHeap.mapM_congr
              intro entry hmem
              rw [hcontents entry.2 (List.mem_map_of_mem hmem)]
      | _ => rfl
  | _ => rfl

theorem Below.trans (hbelow : heap.Below j addr) (hnode : heap.nodes addr = some j')
    (hbelow' : heap.Below j' addr') : heap.Below j addr' := by
  induction hbelow' with
  | direct hmem => exact hbelow.deeper (elementsOf_eq hnode ▸ hmem)
  | deeper _ hmem ih => exact ih.deeper hmem

/-- What is printed stays the same as long as the parts and their blocks do. -/
theorem str_congr (hnodes : ∀ addr, heap.Below j addr → heap'.nodes addr = heap.nodes addr)
    (hblocks : ∀ j', heap.Part j j' → ∀ p, j'.block? = some p → heap'.blocks p = heap.blocks p) :
    heap'.str ostream fuel j = heap.str ostream fuel j := by
  induction fuel generalizing j with
  | zero => rfl
  | succ fuel ih =>
      apply str_succ_congr (hblocks j (.inl rfl))
      intro addr hmem
      have hbelow : heap.Below j addr := .direct hmem
      rw [strAt, strAt, hnodes addr hbelow]
      cases hnode : heap.nodes addr with
      | none => rfl
      | some element =>
          apply ih
          · exact fun x hx => hnodes x (hbelow.trans hnode hx)
          · rintro j' (rfl | ⟨x, hx, hj'⟩)
            · exact hblocks _ (.inr ⟨addr, hbelow, hnode⟩)
            · exact hblocks j' (.inr ⟨x, hbelow.trans hnode hx, hj'⟩)

/-! ## What is printed is finite -/

theorem exists_of_mapM {α β : Type} {f : α → Option β} {l : List α} {ys : List β}
    (hmap : l.mapM f = some ys) : ∀ x ∈ l, ∃ y, f x = some y := by
  induction l generalizing ys with
  | nil => exact fun x hmem => absurd hmem List.not_mem_nil
  | cons x l ih =>
      rw [List.mapM_cons] at hmap
      obtain ⟨y, hy, hrest⟩ := Option.bind_eq_some_iff.mp hmap
      obtain ⟨ys', hys', -⟩ := Option.bind_eq_some_iff.mp hrest
      intro z hmem
      rcases List.mem_cons.mp hmem with rfl | hlater
      · exact ⟨y, hy⟩
      · exact ih hys' z hlater

theorem str_contents (hstr : heap.str ostream (fuel + 1) j = some text) (hmem : addr ∈ heap.contents j) :
    ∃ text', heap.strAt ostream fuel addr = some text' := by
  obtain ⟨type, payload⟩ := j
  cases type with
  | jsonArray =>
      cases payload with
      | mArray p =>
          rw [str_array] at hstr
          obtain ⟨⟨elements, capacity⟩, helements, hrest⟩ := Option.bind_eq_some_iff.mp hstr
          obtain ⟨texts, htexts, -⟩ := Option.bind_eq_some_iff.mp hrest
          rw [contents_array (elements?_eq_some helements)] at hmem
          exact exists_of_mapM htexts addr hmem
      | _ => cases hmem
  | jsonObject =>
      cases payload with
      | mObject p =>
          rw [str_object] at hstr
          obtain ⟨entries, hentries, hrest⟩ := Option.bind_eq_some_iff.mp hstr
          obtain ⟨texts, htexts, -⟩ := Option.bind_eq_some_iff.mp hrest
          rw [contents_object (entries?_eq_some hentries)] at hmem
          obtain ⟨entry, hentry, rfl⟩ := List.mem_map.mp hmem
          obtain ⟨text', htext'⟩ := exists_of_mapM htexts entry hentry
          obtain ⟨text'', htext'', -⟩ := Option.bind_eq_some_iff.mp htext'
          exact ⟨text'', htext''⟩
      | _ => cases hmem
  | _ => cases hmem

/-- `str` calls itself for everything below, with less left to do. -/
theorem str_below (hstr : heap.str ostream fuel j = some text) (hbelow : heap.Below j addr) :
    ∃ j' fuel' text', heap.nodes addr = some j' ∧ fuel' < fuel ∧
      heap.str ostream fuel' j' = some text' := by
  have hdirect : ∀ {j fuel text addr}, heap.str ostream fuel j = some text → addr ∈ heap.contents j →
      ∃ j' fuel' text', heap.nodes addr = some j' ∧ fuel' < fuel ∧
        heap.str ostream fuel' j' = some text' := by
    intro j fuel text addr hstr hmem
    cases fuel with
    | zero => cases hstr
    | succ fuel =>
        obtain ⟨text', htext'⟩ := str_contents hstr hmem
        obtain ⟨j', hnode, hstr'⟩ := Option.bind_eq_some_iff.mp htext'
        exact ⟨j', fuel, text', hnode, Nat.lt_succ_self _, hstr'⟩
  induction hbelow with
  | direct hmem => exact hdirect hstr hmem
  | deeper _ hmem ih =>
      obtain ⟨j', fuel', text', hnode, hlt, hstr'⟩ := ih
      rw [elementsOf_eq hnode] at hmem
      obtain ⟨j'', fuel'', text'', hnode', hlt', hstr''⟩ := hdirect hstr' hmem
      exact ⟨j'', fuel'', text'', hnode', hlt'.trans hlt, hstr''⟩

/-- A value that lies within itself is not printed. -/
theorem not_prints_of_below_self (hnode : heap.nodes addr = some j) (hbelow : heap.Below j addr) :
    ¬ heap.Prints ostream j text := by
  rintro ⟨fuel, hstr⟩
  induction fuel using Nat.strong_induction_on generalizing text with
  | _ fuel ih =>
      obtain ⟨j', fuel', text', hnode', hlt, hstr'⟩ := str_below hstr hbelow
      obtain rfl := Option.some.inj (hnode.symm.trans hnode')
      exact ih fuel' hlt hstr'

theorem Prints.part (hprints : heap.Prints ostream j text) (hpart : heap.Part j j') :
    ∃ text', heap.Prints ostream j' text' := by
  rcases hpart with rfl | ⟨addr, hbelow, hnode⟩
  · exact ⟨text, hprints⟩
  · obtain ⟨fuel, hstr⟩ := hprints
    obtain ⟨j'', fuel', text', hnode', -, hstr'⟩ := str_below hstr hbelow
    obtain rfl := Option.some.inj (hnode.symm.trans hnode')
    exact ⟨text', fuel', hstr'⟩

/-- The block of a value that is printed is there. -/
theorem Prints.exists_block (hprints : heap.Prints ostream j text) (hblock : j.block? = some p) :
    ∃ block, heap.blocks p = some block := by
  obtain ⟨fuel, hstr⟩ := hprints
  obtain ⟨type, payload⟩ := j
  cases fuel with
  | zero => cases hstr
  | succ fuel =>
      cases type <;> cases payload <;> cases hblock
      · obtain ⟨found, hfound, -⟩ := Option.bind_eq_some_iff.mp hstr
        exact ⟨_, text?_eq_some hfound⟩
      · obtain ⟨found, hfound, -⟩ := Option.bind_eq_some_iff.mp hstr
        exact ⟨_, elements?_eq_some hfound⟩
      · obtain ⟨found, hfound, -⟩ := Option.bind_eq_some_iff.mp hstr
        exact ⟨_, entries?_eq_some hfound⟩

end JsonHeap

end CppProjects
