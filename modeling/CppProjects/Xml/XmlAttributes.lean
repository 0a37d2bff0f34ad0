import CppProjects.Core.Delimiters
import CppProjects.Xml.XmlTree

/-!
# The attributes of an `XML` element

`setAttr` keeps the first value of a key, and `str` puts a blank behind it.
-/

namespace CppProjects

open Delimiters

namespace XmlHeap

variable {heap heap' : XmlHeap} {this : ℕ} {xml : Xml} {name : XmlText}
  {attrs attrs' : OrderedMap XmlText XmlText} {calls : List (XmlText × XmlText)}

/-- A run of `setAttr(key, val)`. -/
def setAttrs (heap : XmlHeap) (this : ℕ) (calls : List (XmlText × XmlText)) : Option XmlHeap :=
  calls.foldlM (fun heap call => setAttr heap this call.1 call.2) heap

/-- A named element without text and children. -/
structure Bare (heap : XmlHeap) (this : ℕ) (xml : Xml) (name : XmlText)
    (attrs : OrderedMap XmlText XmlText) : Prop where
  node : heap.nodes this = some xml
  named : xml.mName.isSome
  name : heap.name xml = some name
  text : heap.text xml = some []
  attrs : heap.attrsAt xml.mAttrs = some attrs
  children : heap.childrenAt xml.mChildren = some []

/-- Addresses that were not given out yet have no block. -/
def Fresh (heap : XmlHeap) : Prop := ∀ p, heap.top ≤ p → heap.blocks p = none

/-! ## One call -/

/-- What is behind a pointer, except for attributes, is there after a step too. -/
structure KeepsReads (heap heap' : XmlHeap) : Prop where
  text : ∀ {p text}, (heap.blocks p).bind XmlBlock.text? = some text →
    (heap'.blocks p).bind XmlBlock.text? = some text
  elements : ∀ {p elements}, (heap.blocks p).bind XmlBlock.elements? = some elements →
    (heap'.blocks p).bind XmlBlock.elements? = some elements

theorem KeepsReads.textAt (hkeeps : KeepsReads heap heap') {pointer : Option ℕ} {text : XmlText}
    (htext : heap.textAt pointer = some text) : heap'.textAt pointer = some text := by
  cases pointer with
  | none => exact htext
  | some p => exact hkeeps.text htext

theorem KeepsReads.childrenAt (hkeeps : KeepsReads heap heap') {pointer : Option ℕ}
    {elements : List ℕ} (helements : heap.childrenAt pointer = some elements) :
    heap'.childrenAt pointer = some elements := by
  cases pointer with
  | none => exact helements
  | some p => exact hkeeps.elements helements

theorem Bare.transport (hbare : Bare heap this xml name attrs) (hkeeps : KeepsReads heap heap')
    {pointer : Option ℕ} (hnode : heap'.nodes this = some { xml with mAttrs := pointer })
    (hattrs : heap'.attrsAt pointer = some attrs') :
    Bare heap' this { xml with mAttrs := pointer } name attrs' where
  node := hnode
  named := hbare.named
  name := hkeeps.textAt hbare.name
  text := hkeeps.textAt hbare.text
  attrs := hattrs
  children := hkeeps.childrenAt hbare.children

theorem Fresh.ne_top (hfresh : Fresh heap) {p : ℕ} {block : XmlBlock}
    (hblock : heap.blocks p = some block) : p ≠ heap.top := by
  rintro rfl
  rw [hfresh heap.top (Nat.le_refl _)] at hblock
  cases hblock

theorem Fresh.newBlock (hfresh : Fresh heap) (block : XmlBlock) : Fresh (heap.newBlock block) := by
  intro p hle
  have hne : p ≠ heap.top := Nat.ne_of_gt hle
  rw [NodeHeap.blocks_newBlock_of_ne hne]
  exact hfresh p (Nat.le_of_succ_le hle)

theorem Fresh.setBlock (hfresh : Fresh heap) {p : ℕ} {old : XmlBlock} (hblock : heap.blocks p = some old)
    (block : XmlBlock) : Fresh (heap.setBlock p block) := by
  intro q hle
  have hne : q ≠ p := by
    rintro rfl
    rw [hfresh q hle] at hblock
    cases hblock
  rw [NodeHeap.blocks_setBlock_of_ne hne]
  exact hfresh q hle

theorem keepsReads_newBlock (hfresh : Fresh heap) (block : XmlBlock) :
    KeepsReads heap (heap.newBlock block) := by
  have hold : ∀ {α : Type} {read : XmlBlock → Option α} {value : α} {p : ℕ},
      (heap.blocks p).bind read = some value → ((heap.newBlock block).blocks p).bind read = some value := by
    intro α read value p hread
    obtain ⟨old, hblock, -⟩ := Option.bind_eq_some_iff.mp hread
    rwa [NodeHeap.blocks_newBlock_of_ne (hfresh.ne_top hblock)]
  exact ⟨hold, hold⟩

theorem keepsReads_setBlock {p : ℕ} {entries : OrderedMap XmlText XmlText}
    (hblock : heap.blocks p = some (.map entries)) (block : XmlBlock) :
    KeepsReads heap (heap.setBlock p block) := by
  have hold : ∀ {α : Type} {read : XmlBlock → Option α} {value : α} {q : ℕ},
      read (.map entries) = none → (heap.blocks q).bind read = some value →
      ((heap.setBlock p block).blocks q).bind read = some value := by
    intro α read value q hkind hread
    have hne : q ≠ p := by
      rintro rfl
      rw [hblock, Option.bind_some, hkind] at hread
      cases hread
    rwa [NodeHeap.blocks_setBlock_of_ne hne]
  exact ⟨hold rfl, hold rfl⟩

/-- With a map, the element has the attributes it had before. -/
theorem Bare.ensureAttrs (hbare : Bare heap this xml name attrs) (hfresh : Fresh heap) :
    ∃ heap' xml' p, XmlHeap.ensureAttrs heap this = some heap' ∧ xml'.mAttrs = some p ∧
      Bare heap' this xml' name attrs ∧ Fresh heap' := by
  cases hattrs : xml.mAttrs with
  | some p =>
      refine ⟨heap, xml, p, ?_, hattrs, hbare, hfresh⟩
      rw [XmlHeap.ensureAttrs, hbare.node, Option.bind_eq_bind, Option.bind_some, hattrs]
  | none =>
      have hempty := hbare.attrs
      rw [hattrs] at hempty
      obtain rfl := Option.some.inj hempty
      refine ⟨(heap.newBlock (.map OrderedMap.empty)).setNode this { xml with mAttrs := some heap.top },
        { xml with mAttrs := some heap.top }, heap.top, ?_, rfl, ?_, hfresh.newBlock _⟩
      · rw [XmlHeap.ensureAttrs, hbare.node, Option.bind_eq_bind, Option.bind_some, hattrs]
        exact if_pos (Option.isSome_of_eq_some hbare.node)
      · have hkeeps := keepsReads_newBlock hfresh (.map OrderedMap.empty)
        have hkept : KeepsReads heap ((heap.newBlock (.map OrderedMap.empty)).setNode this
            { xml with mAttrs := some heap.top }) := ⟨hkeeps.text, hkeeps.elements⟩
        refine hbare.transport hkept NodeHeap.nodes_setNode_self ?_
        · change ((heap.newBlock _).blocks heap.top).bind XmlBlock.entries? = _
          rw [NodeHeap.blocks_newBlock_top]
          rfl

/-- A key that is there keeps its value. -/
theorem Bare.setAttr (hbare : Bare heap this xml name attrs) (hfresh : Fresh heap) (key val : XmlText) :
    ∃ heap' xml', XmlHeap.setAttr heap this key val = some heap' ∧
      Bare heap' this xml' name (attrs.emplace key val) ∧ Fresh heap' := by
  obtain ⟨heap', xml', p, hensure, hpointer, hbare', hfresh'⟩ := hbare.ensureAttrs hfresh
  have hattrs := hbare'.attrs
  rw [hpointer] at hattrs
  have hcall : XmlHeap.setAttr heap this key val = if (attrs.find? key).isSome then some heap'
      else some (heap'.setBlock p (.map (attrs.insert key val))) := by
    rw [XmlHeap.setAttr, hensure, Option.bind_eq_bind, Option.bind_some, hbare'.node,
      Option.bind_eq_bind, Option.bind_some, hpointer, Option.bind_eq_bind, Option.bind_some, hattrs]
    rfl
  rw [hcall, OrderedMap.emplace]
  split_ifs with hthere
  · exact ⟨heap', xml', rfl, hbare', hfresh'⟩
  · have hmap := blocks_of_attrsAt hattrs
    refine ⟨_, { xml' with mAttrs := some p }, rfl, ?_, hfresh'.setBlock hmap _⟩
    refine hbare'.transport (keepsReads_setBlock hmap _) ?_ ?_
    · rw [← hpointer]
      exact hbare'.node
    · change ((heap'.setBlock p _).blocks p).bind XmlBlock.entries? = _
      rw [NodeHeap.blocks_setBlock_self]
      rfl

/-! ## A run of calls -/

/-- The map that a run of calls makes of another. -/
def firsts (attrs : OrderedMap XmlText XmlText) (calls : List (XmlText × XmlText)) :
    OrderedMap XmlText XmlText :=
  calls.foldl (fun attrs call => attrs.emplace call.1 call.2) attrs

theorem Bare.setAttrs (hbare : Bare heap this xml name attrs) (hfresh : Fresh heap)
    (calls : List (XmlText × XmlText)) : ∃ heap' xml', XmlHeap.setAttrs heap this calls = some heap' ∧
      Bare heap' this xml' name (firsts attrs calls) := by
  induction calls generalizing heap xml attrs with
  | nil => exact ⟨heap, xml, rfl, hbare⟩
  | cons call calls ih =>
      obtain ⟨heap', xml', hcall, hbare', hfresh'⟩ := hbare.setAttr hfresh call.1 call.2
      obtain ⟨heap'', xml'', hcalls, hbare''⟩ := ih hbare' hfresh'
      refine ⟨heap'', xml'', ?_, hbare''⟩
      rw [XmlHeap.setAttrs, List.foldlM_cons, hcall]
      exact hcalls

/-- What `str` prints for it. -/
theorem Bare.str (hbare : Bare heap this xml name attrs) (fuel : ℕ) :
    heap.str (fuel + 1) xml = pure (strElement name [] attrs.entries []) := by
  obtain ⟨p, hpointer⟩ := Option.isSome_iff_exists.mp hbare.named
  have hholds := holds_childless hbare.node hpointer hbare.name hbare.text hbare.attrs hbare.children
  exact hholds.str hbare.node ⟨rfl, trivial⟩ (Nat.succ_le_succ (Nat.zero_le fuel))

/-! ## The first and the last values -/

/-- An attribute without the blank. -/
def exactAttr (entry : XmlText × XmlText) : XmlText :=
  [' '] ++ entry.1 ++ ['=', '"'] ++ entry.2 ++ ['"']

/-- The attributes as their last calls set them. -/
def lasts (calls : List (XmlText × XmlText)) : OrderedMap XmlText XmlText :=
  calls.foldl (fun attrs call => attrs.insert call.1 call.2) OrderedMap.empty

/-- After the calls, `str` prints the last value of every key, and nothing else. -/
def PrintsLast (heap : XmlHeap) (this : ℕ) (name : XmlText) (calls : List (XmlText × XmlText)) : Prop :=
  ∃ heap' xml', setAttrs heap this calls = some heap' ∧ heap'.nodes this = some xml' ∧
    ∀ fuel, heap'.str (fuel + 1) xml' = pure (['<'] ++ name ++
      (lasts calls).entries.flatMap exactAttr ++ ['>', '<', '/'] ++ name ++ ['>'])

/-- The last value of each key is its first value and a blank. -/
def BlankAdded (calls : List (XmlText × XmlText)) : Prop :=
  ∀ key first last, OrderedMap.lookup? key calls = some first →
    OrderedMap.lookup? key calls.reverse = some last → last = first ++ [' ']

theorem strAttr_eq (entry : XmlText × XmlText) : strAttr entry = exactAttr (entry.1, entry.2 ++ [' ']) := by
  simp [strAttr, exactAttr]

theorem find?_firsts (key : XmlText) :
    (firsts OrderedMap.empty calls).find? key = OrderedMap.lookup? key calls := by
  rw [firsts, OrderedMap.find?_foldl_emplace, OrderedMap.find?_empty, Option.none_or]

theorem find?_lasts (key : XmlText) :
    (lasts calls).find? key = OrderedMap.lookup? key calls.reverse := by
  rw [lasts, OrderedMap.find?_foldl_insert_reverse, OrderedMap.find?_empty, Option.or_none]

/-- The attributes that `str` really prints. -/
def printed (calls : List (XmlText × XmlText)) : OrderedMap XmlText XmlText :=
  (firsts OrderedMap.empty calls).mapValues (· ++ [' '])

theorem find?_printed (key : XmlText) :
    (printed calls).find? key = (OrderedMap.lookup? key calls).map (· ++ [' ']) := by
  rw [printed, OrderedMap.find?_mapValues, find?_firsts]

theorem flatMap_printed : (firsts OrderedMap.empty calls).entries.flatMap strAttr =
    (printed calls).entries.flatMap exactAttr := by
  rw [printed, OrderedMap.mapValues, List.flatMap_map]
  exact congrArg (List.flatMap · _) (funext strAttr_eq)

theorem printed_keys : (printed calls).entries.map Prod.fst = (lasts calls).entries.map Prod.fst := by
  apply OrderedMap.keys_eq
  intro key
  rw [find?_printed, find?_lasts, Option.isSome_map, OrderedMap.isSome_lookup?_reverse]

theorem blankAdded_iff : BlankAdded calls ↔ printed calls = lasts calls := by
  constructor
  · intro hblank
    apply OrderedMap.ext_find?
    intro key
    rw [find?_printed, find?_lasts]
    have hsame := OrderedMap.isSome_lookup?_reverse key calls
    cases hfirst : OrderedMap.lookup? key calls with
    | none =>
        rw [hfirst, Option.isSome_none, Option.isSome_eq_false_iff, Option.isNone_iff_eq_none] at hsame
        rw [hsame]
        rfl
    | some first =>
        rw [hfirst] at hsame
        obtain ⟨last, hlast⟩ := Option.isSome_iff_exists.mp hsame
        rw [hlast, hblank key first last hfirst hlast]
        rfl
  · intro heq key first last hfirst hlast
    have hfind := congrArg (OrderedMap.find? · key) heq
    simp only [find?_printed, find?_lasts, hfirst, hlast, Option.map_some, Option.some.injEq] at hfind
    exact hfind.symm

/-! ## What the text tells -/

/-- Without quotes in the values, the attributes can be read off their text. -/
theorem eq_of_exactAttr {entries entries' : List (XmlText × XmlText)}
    (hkeys : entries.map Prod.fst = entries'.map Prod.fst) (hfree : ∀ entry ∈ entries, '"' ∉ entry.2)
    (hfree' : ∀ entry ∈ entries', '"' ∉ entry.2)
    (heq : entries.flatMap exactAttr = entries'.flatMap exactAttr) : entries = entries' := by
  induction entries generalizing entries' with
  | nil => exact (List.map_eq_nil_iff.mp hkeys.symm).symm
  | cons entry entries ih =>
      cases entries' with
      | nil => cases hkeys
      | cons entry' entries' =>
          obtain ⟨key, val⟩ := entry
          obtain ⟨key', val'⟩ := entry'
          obtain ⟨hkey, hrest⟩ := List.cons.inj hkeys
          obtain rfl : key = key' := hkey
          have htail : val ++ '"' :: entries.flatMap exactAttr =
              val' ++ '"' :: entries'.flatMap exactAttr := by
            simpa [exactAttr] using heq
          have hstops : ∀ {field : XmlText}, '"' ∉ field → ∀ c ∈ field, ¬ c = '"' :=
            fun hfield c hmem hquote => hfield (hquote ▸ hmem)
          obtain ⟨rfl, -, hentries⟩ := eq_of_stop (hstops (hfree _ List.mem_cons_self))
            (hstops (hfree' _ List.mem_cons_self)) rfl rfl htail
          rw [ih hrest (fun e he => hfree e (List.mem_cons_of_mem _ he))
            (fun e he => hfree' e (List.mem_cons_of_mem _ he)) hentries]

theorem mem_of_lasts {entry : XmlText × XmlText} (hmem : entry ∈ (lasts calls).entries) :
    entry ∈ calls := by
  have hfind : (lasts calls).find? entry.1 = some entry.2 :=
    (OrderedMap.lookup?_eq_some_iff (lasts calls).sorted).mpr hmem
  rw [find?_lasts] at hfind
  exact List.mem_reverse.mp (OrderedMap.mem_of_lookup? hfind)

theorem mem_of_printed {entry : XmlText × XmlText} (hmem : entry ∈ (printed calls).entries) :
    ∃ val, (entry.1, val) ∈ calls ∧ entry.2 = val ++ [' '] := by
  have hfind : (printed calls).find? entry.1 = some entry.2 :=
    (OrderedMap.lookup?_eq_some_iff (printed calls).sorted).mpr hmem
  rw [find?_printed] at hfind
  obtain ⟨val, hval, heq⟩ := Option.map_eq_some_iff.mp hfind
  exact ⟨val, OrderedMap.mem_of_lookup? hval, heq.symm⟩

theorem printsLast_iff (hbare : Bare heap this xml name OrderedMap.empty) (hfresh : Fresh heap) :
    PrintsLast heap this name calls ↔
      (printed calls).entries.flatMap exactAttr = (lasts calls).entries.flatMap exactAttr := by
  obtain ⟨heap', xml', hcalls, hbare'⟩ := hbare.setAttrs hfresh calls
  have hprints : ∀ fuel, heap'.str (fuel + 1) xml' = pure (['<'] ++ name ++
      (printed calls).entries.flatMap exactAttr ++ ['>', '<', '/'] ++ name ++ ['>']) := by
    intro fuel
    rw [hbare'.str, strElement, flatMap_printed]
    simp
  constructor
  · rintro ⟨heap'', xml'', hcalls', hnode, hstr⟩
    obtain rfl := Option.some.inj (hcalls.symm.trans hcalls')
    obtain rfl := Option.some.inj (hbare'.node.symm.trans hnode)
    have htexts := Except.ok.inj (Option.some.inj ((hprints 0).symm.trans (hstr 0)))
    simpa using htexts
  · intro heq
    refine ⟨heap', xml', hcalls, hbare'.node, fun fuel => ?_⟩
    rw [hprints, heq]

/-- What `str` prints is exact where every last value is the first one with a blank, and
without quotes in the values nowhere else. -/
theorem attributes_exact (hbare : Bare heap this xml name OrderedMap.empty) (hfresh : Fresh heap)
    (calls : List (XmlText × XmlText)) : (BlankAdded calls → PrintsLast heap this name calls) ∧
      ((∀ call ∈ calls, '"' ∉ call.2) → PrintsLast heap this name calls → BlankAdded calls) := by
  rw [printsLast_iff hbare hfresh, blankAdded_iff]
  constructor
  · intro heq
    rw [heq]
  · intro hquotes heq
    have hfree : ∀ entry ∈ (printed calls).entries, '"' ∉ entry.2 := by
      intro entry hmem hquote
      obtain ⟨val, hval, htext⟩ := mem_of_printed hmem
      rw [htext, List.mem_append] at hquote
      exact hquote.elim (hquotes _ hval) (by decide)
    exact OrderedMap.ext_entries (eq_of_exactAttr printed_keys hfree
      (fun entry hmem => hquotes entry (mem_of_lasts hmem)) heq)

/-! ## Runs on a new element -/

theorem bare_ofName (name : XmlText) : Bare (ofName NodeHeap.empty name) 1 ⟨some 0, none, none, none⟩
    name OrderedMap.empty :=
  ⟨rfl, rfl, rfl, rfl, rfl, rfl⟩

theorem fresh_ofName (name : XmlText) : Fresh (ofName NodeHeap.empty name) := by
  have hempty : Fresh NodeHeap.empty := fun _ _ => rfl
  exact fun p hle => hempty.newBlock (.string name) p (Nat.le_of_succ_le hle)

/-- `XML a("a"); a.setAttr("k", "v"); a.setAttr("k", "v ");` -/
theorem attributes_exact_blank :
    PrintsLast (ofName NodeHeap.empty ['a']) 1 ['a'] [(['k'], ['v']), (['k'], ['v', ' '])] := by
  refine (attributes_exact (bare_ofName ['a']) (fresh_ofName ['a']) _).1 (blankAdded_iff.mpr ?_)
  exact OrderedMap.ext_entries (by decide)

/-- `XML a("a"); a.setAttr("k", "v");` prints a blank that is not in the value. -/
theorem attribute_with_blank :
    ¬ PrintsLast (ofName NodeHeap.empty ['a']) 1 ['a'] [(['k'], ['v'])] := by
  rw [printsLast_iff (bare_ofName ['a']) (fresh_ofName ['a'])]
  decide

/-- With quotes in the values, other attributes may have the text of the last ones. -/
example : (printed [(['a'], "x".toList), (['b'], "p\" b=\"q".toList), (['a'], "x \" b=\"p".toList),
      (['b'], "q ".toList)]).entries.flatMap exactAttr =
    (lasts [(['a'], "x".toList), (['b'], "p\" b=\"q".toList), (['a'], "x \" b=\"p".toList),
      (['b'], "q ".toList)]).entries.flatMap exactAttr := by
  decide

end XmlHeap
end CppProjects
