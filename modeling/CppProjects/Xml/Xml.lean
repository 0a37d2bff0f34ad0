import CppProjects.Core.CInt
import CppProjects.Core.NodeHeap
import CppProjects.Core.OrderedMap
import Mathlib.Data.Char

/-!
# `XML`

An `XML` is four pointers.  The copy constructor copies the pointers, and there is no
destructor.  A `Value` is its `m_value`.

A function has no outcome where its behaviour is undefined: where it follows a
pointer to an object that is gone, or where an `int` overflows.
-/

namespace CppProjects

abbrev XmlText := List Char

structure Xml where
  mName : Option ℕ
  mText : Option ℕ
  mAttrs : Option ℕ
  mChildren : Option ℕ
deriving DecidableEq, Repr

/-- What the pointers of an `XML` point to. -/
inductive XmlBlock
  | string (text : XmlText)
  | map (entries : OrderedMap XmlText XmlText)
  | list (elements : List ℕ)

abbrev XmlHeap := NodeHeap Xml XmlBlock

instance : Pointers Xml where
  pointers xml := xml.mName.toList ++ xml.mText.toList ++ xml.mAttrs.toList ++ xml.mChildren.toList

namespace XmlBlock

def children : XmlBlock → List ℕ
  | .list elements => elements
  | .string _ | .map _ => []

def text? : XmlBlock → Option XmlText
  | .string text => some text
  | _ => none

def entries? : XmlBlock → Option (OrderedMap XmlText XmlText)
  | .map entries => some entries
  | _ => none

def elements? : XmlBlock → Option (List ℕ)
  | .list elements => some elements
  | _ => none

end XmlBlock

instance : Children XmlBlock where
  children := XmlBlock.children

/-- A call that may throw a `logic_error`. -/
abbrev XmlCall := ExceptT String Option

namespace XmlHeap

open CInt

variable (heap : XmlHeap)

/-- The text behind a pointer, and none behind a null pointer. -/
def textAt : Option ℕ → Option XmlText
  | none => some []
  | some p => (heap.blocks p).bind XmlBlock.text?

def attrsAt : Option ℕ → Option (OrderedMap XmlText XmlText)
  | none => some OrderedMap.empty
  | some p => (heap.blocks p).bind XmlBlock.entries?

def childrenAt : Option ℕ → Option (List ℕ)
  | none => some []
  | some p => (heap.blocks p).bind XmlBlock.elements?

/-! ## Constructors -/

/-- `XML()`. -/
def null : Xml := ⟨none, none, none, none⟩

def construct : XmlHeap := heap.newRoot null

/-- `XML(const string &)`. -/
def ofName (name : XmlText) : XmlHeap :=
  (heap.newBlock (.string name)).newRoot { null with mName := some heap.top }

/-- `XML(const XML &)`. -/
def copied (other : Xml) : Xml := ⟨other.mName, other.mText, other.mAttrs, other.mChildren⟩

/-- A variable is constructed from another `XML`. -/
def copyConstruct (other : ℕ) : Option XmlHeap := do
  let source ← heap.nodes other
  some (heap.newRoot (copied source))

/-! ## Observers -/

def name (xml : Xml) : Option XmlText := textAt heap xml.mName

def text (xml : Xml) : Option XmlText := textAt heap xml.mText

/-- An attribute as `str` prints it. -/
def strAttr (entry : XmlText × XmlText) : XmlText :=
  [' '] ++ entry.1 ++ ['=', '"'] ++ entry.2 ++ [' ', '"']

/-- What `str` prints around the children. -/
def strElement (name text : XmlText) (attrs : List (XmlText × XmlText)) (children : List XmlText) :
    XmlText :=
  ['<'] ++ name ++ attrs.flatMap strAttr ++ ['>'] ++ children.flatten ++ text ++
    ['<', '/'] ++ name ++ ['>']

/-- `str()`, as far as `fuel` levels. -/
def str : ℕ → Xml → XmlCall XmlText
  | 0, _ => ExceptT.mk none
  | fuel + 1, xml => do
      if xml.mName = none then throw "element name is not exist!"
      let name ← name heap xml
      let attrs ← attrsAt heap xml.mAttrs
      let elements ← childrenAt heap xml.mChildren
      let children ← elements.mapM fun addr => do
        let child ← (heap.nodes addr : Option Xml)
        str fuel child
      let text ← text heap xml
      return strElement name text attrs.entries children

/-! ## Names, texts and attributes -/

/-- `delete`; deleting a null pointer does nothing. -/
def delete : Option ℕ → Option XmlHeap
  | none => some heap
  | some p => do
      let block ← heap.blocks p
      some (heap.drop p block)

def setName (this : ℕ) (name : XmlText) : Option XmlHeap := do
  let xml ← heap.nodes this
  let heap ← delete heap xml.mName
  (heap.newBlock (.string name)).write this { xml with mName := some heap.top }

def setText (this : ℕ) (text : XmlText) : Option XmlHeap := do
  let xml ← heap.nodes this
  let heap ← delete heap xml.mText
  (heap.newBlock (.string text)).write this { xml with mText := some heap.top }

/-- A new map, unless there is one. -/
def ensureAttrs (this : ℕ) : Option XmlHeap := do
  let xml ← heap.nodes this
  match xml.mAttrs with
  | some _ => some heap
  | none => (heap.newBlock (.map OrderedMap.empty)).write this { xml with mAttrs := some heap.top }

/-- `setAttr`: a key that is there keeps its value. -/
def setAttr (this : ℕ) (key val : XmlText) : Option XmlHeap := do
  let heap ← ensureAttrs heap this
  let xml ← heap.nodes this
  let p ← xml.mAttrs
  let attrs ← attrsAt heap (some p)
  if (attrs.find? key).isSome then some heap
  else some (heap.setBlock p (.map (attrs.insert key val)))

/-! ## Children -/

/-- A new list, unless there is one. -/
def ensureChildren (this : ℕ) : Option XmlHeap := do
  let xml ← heap.nodes this
  match xml.mChildren with
  | some _ => some heap
  | none => (heap.newBlock (.list [])).write this { xml with mChildren := some heap.top }

/-- `m_children -> push_back(child)`. -/
def pushBack (this : ℕ) (child : Xml) : Option XmlHeap := do
  let xml ← heap.nodes this
  let p ← xml.mChildren
  let elements ← childrenAt heap (some p)
  some ((heap.newNode (copied child)).setBlock p (.list (elements ++ [heap.top])))

def append (this child : ℕ) : Option XmlHeap := do
  let heap ← ensureChildren heap this
  let source ← heap.nodes child
  pushBack heap this source

/-- The loop of `operator[](int)` from `i` on, `count` turns before its test fails.  The
increment of the largest `int` has no outcome. -/
def pushNulls (this : ℕ) : ℕ → ℤ → XmlHeap → Option XmlHeap
  | 0, _, heap => some heap
  | count + 1, i, heap => do
      let heap ← pushBack heap this null
      if i = intMax then none else pushNulls this count (i + 1) heap

/-- `operator[](int)`, with the child it refers to. -/
def index (this : ℕ) (index : ℤ) : Option (XmlHeap × Except String ℕ) := do
  if index < 0 then some (heap, throw "index is less zero")
  else do
    let heap ← ensureChildren heap this
    let xml ← heap.nodes this
    let elements ← childrenAt heap xml.mChildren
    let size := toInt elements.length
    if index < size then do
      let addr ← elements[index.toNat]?
      some (heap, pure addr)
    else do
      let heap ← pushNulls this (index + 1 - size).toNat size heap
      let elements ← childrenAt heap xml.mChildren
      let addr ← elements.getLast?
      some (heap, pure addr)

/-- The first of the children that has the name. -/
def findName (name : XmlText) : List ℕ → Option (Option ℕ)
  | [] => some none
  | addr :: rest => do
      let child ← heap.nodes addr
      let other ← XmlHeap.name heap child
      if other = name then some (some addr) else findName name rest

/-- `operator[](const string &)`, with the child it refers to. -/
def indexName (this : ℕ) (name : XmlText) : Option (XmlHeap × ℕ) := do
  let heap ← ensureChildren heap this
  let xml ← heap.nodes this
  let elements ← childrenAt heap xml.mChildren
  match ← findName heap name elements with
  | some addr => some (heap, addr)
  | none => do
      let named := heap.newBlock (.string name)
      let pushed ← pushBack named this { null with mName := some heap.top }
      some (pushed, named.top)

/-! ## `clear` and what uses it -/

/-- A block is deleted, and the pointer to it is null. -/
def clearField (this : ℕ) (field : Xml → Option ℕ) (reset : Xml → Xml) : Option XmlHeap := do
  let xml ← heap.nodes this
  let heap ← delete heap (field xml)
  heap.write this (reset xml)

/-- `clear()`, as far as `fuel` levels. -/
def clear : ℕ → ℕ → XmlHeap → Option XmlHeap
  | 0, _, _ => none
  | fuel + 1, this, heap => do
      let heap ← clearField heap this Xml.mName fun xml => { xml with mName := none }
      let heap ← clearField heap this Xml.mAttrs fun xml => { xml with mAttrs := none }
      let heap ← clearField heap this Xml.mText fun xml => { xml with mText := none }
      let xml ← heap.nodes this
      let elements ← childrenAt heap xml.mChildren
      let heap ← elements.foldlM (fun heap addr => clear fuel addr heap) heap
      clearField heap this Xml.mChildren fun xml => { xml with mChildren := none }

/-- `operator=(const XML &)`. -/
def assign (fuel this other : ℕ) : Option XmlHeap := do
  let heap ← clear fuel this heap
  let source ← heap.nodes other
  heap.write this (copied source)

/-- The child at `addr` is cleared and erased from the list at `p`. -/
def eraseChild (fuel p addr : ℕ) : Option XmlHeap := do
  let heap ← clear fuel addr heap
  let elements ← childrenAt heap (some p)
  if addr ∈ elements then some ((heap.setBlock p (.list (elements.erase addr))).discard [addr])
  else none

/-- `remove(int)`. -/
def remove (fuel this : ℕ) (index : ℤ) : Option (XmlHeap × Except String Unit) := do
  let xml ← heap.nodes this
  match xml.mChildren with
  | none => some (heap, pure ())
  | some p => do
      let elements ← childrenAt heap (some p)
      match if index < 0 then none else elements[index.toNat]? with
      | none => some (heap, throw "index is out of range")
      | some addr => do
          let heap ← eraseChild heap fuel p addr
          some (heap, pure ())

/-- The loop of `remove(const string &)`. -/
def removeLoop (fuel p : ℕ) (name : XmlText) : List ℕ → XmlHeap → Option XmlHeap
  | [], heap => some heap
  | addr :: rest, heap => do
      let child ← heap.nodes addr
      let other ← XmlHeap.name heap child
      if other = name then do
        let heap ← eraseChild heap fuel p addr
        removeLoop fuel p name rest heap
      else removeLoop fuel p name rest heap

/-- `remove(const string &)`. -/
def removeName (fuel this : ℕ) (name : XmlText) : Option XmlHeap := do
  let xml ← heap.nodes this
  match xml.mChildren with
  | none => some heap
  | some p => do
      let elements ← childrenAt heap (some p)
      removeLoop fuel p name elements heap

end XmlHeap

end CppProjects
