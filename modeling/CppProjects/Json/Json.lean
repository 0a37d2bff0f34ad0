import CppProjects.Core.JsonWidth
import CppProjects.Core.NodeHeap
import CppProjects.Core.TransitionSystem

/-!
# `Json`

A `Json` is a tag `m_type` and a union `m_value`.  It has no destructor, and its
copy constructor does not write `m_type`: a copy has the tag that the storage it
is constructed in held before.

A function is `none` where its behaviour is undefined: where it reads a member of
the union that is not the one last written, or an object that is gone.  Growing a
vector does not fail.
-/

namespace CppProjects

/-- `Json::Type`.  Storage that has not been written may also hold no enumerator. -/
inductive JsonType
  | jsonNull
  | jsonBool
  | jsonInt
  | jsonDouble
  | jsonString
  | jsonArray
  | jsonObject
  | stray
deriving DecidableEq, Repr

/-- The members of `Json::Value`. -/
inductive Member
  | mBool
  | mInt
  | mDouble
  | mString
  | mArray
  | mObject
deriving DecidableEq, Repr

/-- `Json::Value`, by the member last written.  A pointer that has been deleted is
no value. -/
inductive Payload (δ : Type)
  | unwritten
  | mBool (value : Bool)
  | mInt (value : ℤ)
  | mDouble (value : δ)
  | mString (p : ℕ)
  | mArray (p : ℕ)
  | mObject (p : ℕ)

@[ext]
structure Json (δ : Type) where
  mType : JsonType
  mValue : Payload δ

/-- What the pointers of a `Json` point to. -/
inductive JsonBlock
  | string (text : List Char)
  | array (elements : List ℕ) (capacity : ℕ)
  | object (entries : OrderedMap (List Char) ℕ)

abbrev JsonHeap (δ : Type) := NodeHeap (Json δ) JsonBlock

/-- What the environment supplies: the tag that the storage of a node held before,
and the number of elements a full vector makes room for. -/
structure Storage where
  stale : ℕ → JsonType
  growth : ℕ → ℕ

variable {δ : Type}

/-- The member a tag stands for. -/
def JsonType.member : JsonType → Option Member
  | .jsonNull | .stray => none
  | .jsonBool => some .mBool
  | .jsonInt => some .mInt
  | .jsonDouble => some .mDouble
  | .jsonString => some .mString
  | .jsonArray => some .mArray
  | .jsonObject => some .mObject

namespace Payload

def member : Payload δ → Option Member
  | .unwritten => none
  | .mBool _ => some .mBool
  | .mInt _ => some .mInt
  | .mDouble _ => some .mDouble
  | .mString _ => some .mString
  | .mArray _ => some .mArray
  | .mObject _ => some .mObject

def pointer : Payload δ → Option ℕ
  | .mString p | .mArray p | .mObject p => some p
  | .unwritten | .mBool _ | .mInt _ | .mDouble _ => none

def mBool? : Payload δ → Option Bool
  | .mBool value => some value
  | _ => none

def mInt? : Payload δ → Option ℤ
  | .mInt value => some value
  | _ => none

def mDouble? : Payload δ → Option δ
  | .mDouble value => some value
  | _ => none

def mString? : Payload δ → Option ℕ
  | .mString p => some p
  | _ => none

def mArray? : Payload δ → Option ℕ
  | .mArray p => some p
  | _ => none

def mObject? : Payload δ → Option ℕ
  | .mObject p => some p
  | _ => none

end Payload

instance : Pointers (Json δ) where
  pointers j := j.mValue.pointer.toList

namespace JsonBlock

def children : JsonBlock → List ℕ
  | .string _ => []
  | .array elements _ => elements
  | .object entries => entries.entries.map Prod.snd

def text? : JsonBlock → Option (List Char)
  | .string text => some text
  | _ => none

def elements? : JsonBlock → Option (List ℕ × ℕ)
  | .array elements capacity => some (elements, capacity)
  | _ => none

def entries? : JsonBlock → Option (OrderedMap (List Char) ℕ)
  | .object entries => some entries
  | _ => none

end JsonBlock

instance : Children JsonBlock where
  children := JsonBlock.children

namespace Json

/-- `Json()`. -/
def null : Json δ := ⟨.jsonNull, .unwritten⟩

/-- `Json(const Json &)` in storage that held the tag `stale`. -/
def copied (stale : JsonType) (other : Json δ) : Option (Json δ) :=
  match other.mType with
  | .jsonNull | .stray => some ⟨stale, .unwritten⟩
  | .jsonBool => other.mValue.mBool?.map fun value => ⟨stale, .mBool value⟩
  | .jsonInt => other.mValue.mInt?.map fun value => ⟨stale, .mInt value⟩
  | .jsonDouble => other.mValue.mDouble?.map fun value => ⟨stale, .mDouble value⟩
  | .jsonString => other.mValue.mString?.map fun p => ⟨stale, .mString p⟩
  | .jsonArray => other.mValue.mArray?.map fun p => ⟨stale, .mArray p⟩
  | .jsonObject => other.mValue.mObject?.map fun p => ⟨stale, .mObject p⟩

/-- `operator==`, where `same` is the one of `double`. -/
def equals (same : δ → δ → Bool) (j other : Json δ) : Option Bool :=
  if j.mType ≠ other.mType then some false
  else
    match other.mType with
    | .jsonNull => some true
    | .jsonBool => do
        let value ← j.mValue.mBool?
        let value' ← other.mValue.mBool?
        some (value == value')
    | .jsonInt => do
        let value ← j.mValue.mInt?
        let value' ← other.mValue.mInt?
        some (value == value')
    | .jsonDouble => do
        let value ← j.mValue.mDouble?
        let value' ← other.mValue.mDouble?
        some (same value value')
    | .jsonString => do
        let p ← j.mValue.mString?
        let p' ← other.mValue.mString?
        some (p == p')
    | .jsonArray => do
        let p ← j.mValue.mArray?
        let p' ← other.mValue.mArray?
        some (p == p')
    | .jsonObject => do
        let p ← j.mValue.mObject?
        let p' ← other.mValue.mObject?
        some (p == p')
    | .stray => some false

/-- `operator!=`. -/
def differs (same : δ → δ → Bool) (j other : Json δ) : Option Bool :=
  (j.equals same other).map not

end Json

/-- The arguments of the constructors and of `operator=` that are not a `Json`. -/
inductive Scalar (δ : Type)
  | bool (value : Bool)
  | int (value : ℤ)
  | double (value : δ)
  | string (text : List Char)

/-- The exceptions, with their texts. -/
inductive JsonError
  | logicError (what : String)
  | outOfRange (what : String)
deriving DecidableEq, Repr

namespace JsonHeap

variable (heap : JsonHeap δ)

def text? (p : ℕ) : Option (List Char) := (heap.blocks p).bind JsonBlock.text?

def elements? (p : ℕ) : Option (List ℕ × ℕ) := (heap.blocks p).bind JsonBlock.elements?

def entries? (p : ℕ) : Option (OrderedMap (List Char) ℕ) := (heap.blocks p).bind JsonBlock.entries?

/-! ## Constructors -/

/-- `Json(bool)`, `Json(int)`, `Json(double)` and `Json(const string &)`. -/
def ofScalar : Scalar δ → JsonHeap δ
  | .bool value => heap.newRoot ⟨.jsonBool, .mBool value⟩
  | .int value => heap.newRoot ⟨.jsonInt, .mInt value⟩
  | .double value => heap.newRoot ⟨.jsonDouble, .mDouble value⟩
  | .string text => (heap.newBlock (.string text)).newRoot ⟨.jsonString, .mString heap.top⟩

/-- `Json(Type)`. -/
def ofType [Zero δ] : JsonType → JsonHeap δ
  | .jsonNull => heap.newRoot .null
  | .jsonBool => heap.newRoot ⟨.jsonBool, .mBool false⟩
  | .jsonInt => heap.newRoot ⟨.jsonInt, .mInt 0⟩
  | .jsonDouble => heap.newRoot ⟨.jsonDouble, .mDouble 0⟩
  | .jsonString => (heap.newBlock (.string [])).newRoot ⟨.jsonString, .mString heap.top⟩
  | .jsonArray => (heap.newBlock (.array [] 0)).newRoot ⟨.jsonArray, .mArray heap.top⟩
  | .jsonObject =>
      (heap.newBlock (.object OrderedMap.empty)).newRoot ⟨.jsonObject, .mObject heap.top⟩
  | .stray => heap.newRoot ⟨.stray, .unwritten⟩

/-- A variable is constructed from another `Json`. -/
def copyConstruct (storage : Storage) (other : ℕ) : Option (JsonHeap δ) := do
  let source ← heap.nodes other
  let copy ← source.copied (storage.stale heap.top)
  some (heap.newRoot copy)

/-! ## Assignments -/

/-- The block is deleted and the tag is `json_null`. -/
def release (this p : ℕ) : Option (JsonHeap δ) := do
  let block ← heap.blocks p
  (heap.drop p block).write this .null

def clear (this : ℕ) : Option (JsonHeap δ) := do
  let j ← heap.nodes this
  match j.mType with
  | .jsonString => do
      let p ← j.mValue.mString?
      release heap this p
  | .jsonArray => do
      let p ← j.mValue.mArray?
      release heap this p
  | .jsonObject => do
      let p ← j.mValue.mObject?
      release heap this p
  | _ => heap.write this ⟨.jsonNull, j.mValue⟩

/-- `clear` unless the tag is `type` already. -/
def clearUnless (this : ℕ) (type : JsonType) : Option (JsonHeap δ) := do
  let j ← heap.nodes this
  if j.mType = type then some heap else clear heap this

/-- A new block, and `value` with a pointer to it in `this`. -/
def install (this : ℕ) (block : JsonBlock) (value : ℕ → Json δ) : Option (JsonHeap δ) :=
  (heap.newBlock block).write this (value heap.top)

/-- The assignment of a value that needs no block. -/
def assignValue (this : ℕ) (value : Json δ) : Option (JsonHeap δ) := do
  let heap ← clearUnless heap this value.mType
  heap.write this value

/-- `operator=` of a `bool`, an `int`, a `double` and a `string`. -/
def assign (this : ℕ) : Scalar δ → Option (JsonHeap δ)
  | .bool value => assignValue heap this ⟨.jsonBool, .mBool value⟩
  | .int value => assignValue heap this ⟨.jsonInt, .mInt value⟩
  | .double value => assignValue heap this ⟨.jsonDouble, .mDouble value⟩
  | .string text => do
      let j ← heap.nodes this
      if j.mType = .jsonString then do
        let p ← j.mValue.mString?
        let _ ← text? heap p
        some (heap.setBlock p (.string text))
      else do
        let heap ← clear heap this
        install heap this (.string text) fun p => ⟨.jsonString, .mString p⟩

/-- Elements are copied, one after another. -/
def copyAll (storage : Storage) : List ℕ → JsonHeap δ → Option (JsonHeap δ)
  | [], heap => some heap
  | addr :: rest, heap => do
      let source ← heap.nodes addr
      let copy ← source.copied (storage.stale heap.top)
      copyAll storage rest (heap.newNode copy)

/-- A new container in `this`, with copies of `elements`. -/
def copyContainer (storage : Storage) (this : ℕ) (elements : List ℕ) (block : List ℕ → JsonBlock)
    (value : ℕ → Json δ) : Option (JsonHeap δ) := do
  let copied ← copyAll storage elements heap
  install copied this (block (List.range' heap.top elements.length)) value

/-- `operator=(const Json &)`. -/
def assignJson (storage : Storage) (this other : ℕ) : Option (JsonHeap δ) :=
  if this = other then some heap
  else do
    let heap ← clear heap this
    let cleared ← heap.nodes this
    let source ← heap.nodes other
    let heap ← heap.write this ⟨source.mType, cleared.mValue⟩
    match source.mType with
    | .jsonNull | .stray => some heap
    | .jsonBool => do
        let value ← source.mValue.mBool?
        heap.write this ⟨.jsonBool, .mBool value⟩
    | .jsonInt => do
        let value ← source.mValue.mInt?
        heap.write this ⟨.jsonInt, .mInt value⟩
    | .jsonDouble => do
        let value ← source.mValue.mDouble?
        heap.write this ⟨.jsonDouble, .mDouble value⟩
    | .jsonString => do
        let p ← source.mValue.mString?
        let text ← text? heap p
        install heap this (.string text) fun p => ⟨.jsonString, .mString p⟩
    | .jsonArray => do
        let p ← source.mValue.mArray?
        let (elements, _) ← elements? heap p
        copyContainer heap storage this elements (fun copies => .array copies copies.length)
          fun p => ⟨.jsonArray, .mArray p⟩
    | .jsonObject => do
        let p ← source.mValue.mObject?
        let entries ← entries? heap p
        copyContainer heap storage this (entries.entries.map Prod.snd)
          (fun copies => .object (entries.withValues copies)) fun p => ⟨.jsonObject, .mObject p⟩

/-! ## Arrays and objects -/

/-- The start of `append`: a new array, unless there is one. -/
def adopt (this : ℕ) : Option (JsonHeap δ) := do
  let j ← heap.nodes this
  if j.mType = .jsonArray then some heap
  else install heap this (.array [] 0) fun p => ⟨.jsonArray, .mArray p⟩

/-- The start of `operator[](int)`. -/
def becomeArray (this : ℕ) : Option (JsonHeap δ) := do
  let j ← heap.nodes this
  if j.mType = .jsonArray then some heap
  else do
    let heap ← clear heap this
    install heap this (.array [] 0) fun p => ⟨.jsonArray, .mArray p⟩

/-- The start of `operator[](const string &)`. -/
def becomeObject (this : ℕ) : Option (JsonHeap δ) := do
  let j ← heap.nodes this
  if j.mType = .jsonObject then some heap
  else do
    let heap ← clear heap this
    install heap this (.object OrderedMap.empty) fun p => ⟨.jsonObject, .mObject p⟩

/-- `m_array -> push_back(value)`.  A full vector copies its elements to new storage
behind the new one. -/
def pushBack (storage : Storage) (this : ℕ) (value : Json δ) : Option (JsonHeap δ) := do
  let j ← heap.nodes this
  let p ← j.mValue.mArray?
  let (elements, capacity) ← elements? heap p
  let copy ← value.copied (storage.stale heap.top)
  let pushed := heap.newNode copy
  if elements.length < capacity then
    some (pushed.setBlock p (.array (elements ++ [heap.top]) capacity))
  else do
    let moved ← copyAll storage elements pushed
    let capacity := max (storage.growth elements.length) (elements.length + 1)
    let elements' := List.range' pushed.top elements.length ++ [heap.top]
    some ((moved.discard elements).setBlock p (.array elements' capacity))

/-- `m_array -> push_back(Json())`, `count` times. -/
def pushNulls (storage : Storage) (this : ℕ) : ℕ → JsonHeap δ → Option (JsonHeap δ)
  | 0, heap => some heap
  | count + 1, heap => do
      let heap ← pushBack heap storage this .null
      pushNulls storage this count heap

def append (storage : Storage) (this other : ℕ) : Option (JsonHeap δ) := do
  let heap ← adopt heap this
  let value ← heap.nodes other
  pushBack heap storage this value

/-- `operator[](int)`, with the element it refers to; a negative index throws. -/
def index (storage : Storage) (this : ℕ) (index : ℤ) : Option (JsonHeap δ × Option ℕ) := do
  let heap ← becomeArray heap this
  if index < 0 then some (heap, none)
  else do
    let j ← heap.nodes this
    let p ← j.mValue.mArray?
    let (elements, _) ← elements? heap p
    let heap ← pushNulls storage this (index.toNat + 1 - elements.length) heap
    let (elements, _) ← elements? heap p
    let addr ← elements[index.toNat]?
    some (heap, some addr)

/-- `(*m_object)[key]`, with the node it refers to. -/
def entry (this : ℕ) (key : List Char) : Option (JsonHeap δ × ℕ) := do
  let j ← heap.nodes this
  let p ← j.mValue.mObject?
  let entries ← entries? heap p
  match entries.find? key with
  | some addr => some (heap, addr)
  | none =>
      some ((heap.newNode .null).setBlock p (.object (entries.insert key heap.top)), heap.top)

/-- `operator[](const string &)`, with the node it refers to. -/
def indexKey (this : ℕ) (key : List Char) : Option (JsonHeap δ × ℕ) := do
  let heap ← becomeObject heap this
  entry heap this key

/-! ## Observers -/

/-- What is printed for the elements of an array; a comma stands before all but the
first. -/
def joined (first : Bool) : List (List Char) → List Char
  | [] => []
  | text :: texts => (if first then [] else [',']) ++ text ++ joined false texts

def quoted (text : List Char) : List Char := '"' :: text ++ ['"']

/-- `str()`, as far as `fuel` levels.  `ostream` says how a `double` is printed. -/
def str (ostream : δ → List Char) : ℕ → Json δ → Option (List Char)
  | 0, _ => none
  | fuel + 1, j =>
      match j.mType with
      | .jsonNull => some "null".toList
      | .jsonBool => do
          let value ← j.mValue.mBool?
          some (if value then "true".toList else "false".toList)
      | .jsonInt => do
          let value ← j.mValue.mInt?
          some (JsonText.showInt value)
      | .jsonDouble => do
          let value ← j.mValue.mDouble?
          some (ostream value)
      | .jsonString => do
          let p ← j.mValue.mString?
          let text ← text? heap p
          some (quoted text)
      | .jsonArray => do
          let p ← j.mValue.mArray?
          let (elements, _) ← elements? heap p
          let texts ← elements.mapM fun addr => do
            let element ← heap.nodes addr
            str ostream fuel element
          some (['['] ++ joined true texts ++ [']'])
      | .jsonObject => do
          let p ← j.mValue.mObject?
          let entries ← entries? heap p
          let texts ← entries.entries.mapM fun entry => do
            let value ← heap.nodes entry.2
            let text ← str ostream fuel value
            some (quoted entry.1 ++ ':' :: text)
          some (['\x7b'] ++ joined true texts ++ ['\x7d'])
      | .stray => some []

/-- A conversion: what it reads, if the tag is `type`, else a `logic_error`. -/
def convert {β : Type} (this : ℕ) (type : JsonType) (what : String) (read : Json δ → Option β) :
    Option (Except JsonError β) := do
  let j ← heap.nodes this
  if j.mType ≠ type then some (.error (.logicError what))
  else do
    let value ← read j
    some (.ok value)

/-- `operator bool()`. -/
def toBool (this : ℕ) : Option (Except JsonError Bool) :=
  convert heap this .jsonBool "type error, not bool value" fun j => j.mValue.mBool?

/-- `operator int()`. -/
def toInt (this : ℕ) : Option (Except JsonError ℤ) :=
  convert heap this .jsonInt "type error, not int value" fun j => j.mValue.mInt?

/-- `operator double()`. -/
def toDouble (this : ℕ) : Option (Except JsonError δ) :=
  convert heap this .jsonDouble "type error, not double value" fun j => j.mValue.mDouble?

/-- `operator string()`. -/
def toString (this : ℕ) : Option (Except JsonError (List Char)) :=
  convert heap this .jsonString "type error, not string value" fun j =>
    j.mValue.mString?.bind (text? heap)

def asBool (this : ℕ) : Option (Except JsonError Bool) :=
  convert heap this .jsonBool "type error, not bool type" fun j => j.mValue.mBool?

def asInt (this : ℕ) : Option (Except JsonError ℤ) :=
  convert heap this .jsonInt "type error, not int type" fun j => j.mValue.mInt?

def asDouble (this : ℕ) : Option (Except JsonError δ) :=
  convert heap this .jsonDouble "type error, not double type" fun j => j.mValue.mDouble?

/-- What is returned in the source is the pointer, not the text. -/
def asString (this : ℕ) : Option (Except JsonError ℕ) :=
  convert heap this .jsonString "type error, not string type" fun j => j.mValue.mString?

/-- `has(const string &)`. -/
def has (this : ℕ) (key : List Char) : Option Bool := do
  let j ← heap.nodes this
  if j.mType = .jsonObject then do
    let p ← j.mValue.mObject?
    let entries ← entries? heap p
    some (entries.find? key).isSome
  else some false

end JsonHeap

end CppProjects
