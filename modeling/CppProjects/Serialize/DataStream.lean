import CppProjects.Core.CInt
import CppProjects.Core.LittleEndian

/-!
# The self-describing byte stream

`DataStream` appends tagged values to a byte buffer and reads them back from a
cursor.  The overloads of `write` and `read` are separate functions here, and
`Ty` is the closed set of C++ types they can be instantiated at, so that the
templates for containers become recursive calls on element types.

Reading is modelled without any bounds check, as in the source: a byte outside
the buffer is whatever the surrounding memory holds, a scalar local that no
read has filled is indeterminate, and a ghost flag records that an index
outside the buffer was used.
-/

namespace CppProjects

open LittleEndian CInt

/-- `DataStream::DataType`. -/
inductive DataType
  | bool | char | int16 | int32 | int64 | float | double | string
  | vector | list | set | map | custom
  deriving DecidableEq, Repr

/-- The tag byte of an enumerator is its position in the enumeration. -/
def DataType.code : DataType → Byte
  | bool => 0
  | char => 1
  | int16 => 2
  | int32 => 3
  | int64 => 4
  | float => 5
  | double => 6
  | string => 7
  | vector => 8
  | list => 9
  | set => 10
  | map => 11
  | custom => 12

theorem DataType.code_injective : Function.Injective DataType.code := by
  intro left right heq
  cases left <;> cases right <;> first | rfl | exact absurd heq (by decide)

/-- `m_buf`, its `capacity()`, and the read cursor. -/
structure DataStream where
  mBuf : List Byte
  capacity : ℕ
  mPos : ℤ
  deriving DecidableEq, Repr

namespace DataStream

/-- The state left by the constructor. -/
def fresh : DataStream := ⟨[], 0, 0⟩

/-! ## Writing -/

/-- The doubling loop of `reserve`.  `none` is a signed overflow of `cap *= 2`. -/
def growCap (need cap : ℕ) : Option ℕ :=
  if need > cap then
    if cap = 0 then growCap need 1
    else if 2 * cap ≤ intMax then growCap need (2 * cap)
    else none
  else some cap
termination_by need - cap

/-- `none` is a signed overflow, of `size + len` or inside the loop. -/
def reserve (stream : DataStream) (len : ℕ) : Option DataStream :=
  let size := stream.mBuf.length
  if size + len > intMax then none
  else if size + len > stream.capacity then do
    let cap ← growCap (size + len) stream.capacity
    some { stream with capacity := cap }
  else some stream

/-- `write(const char *, int)`.  A negative length reaches `memcpy` as a huge
`size_t`, and a length beyond the source object reads past its end: both are
undefined and give `none`. -/
def writeBytes (data : List Byte) (len : ℤ) (stream : DataStream) : Option DataStream :=
  if len < 0 ∨ data.length < len then none
  else do
    let stream ← stream.reserve len.toNat
    some { stream with mBuf := stream.mBuf ++ data.take len.toNat }

/-- The scalar overloads differ only in the tag and in the width. -/
def writeFixed (type : DataType) {width : ℕ} (value : Word width) (stream : DataStream) :
    Option DataStream := do
  let stream ← stream.writeBytes [type.code] 1
  stream.writeBytes (encodeWord value) width

def writeBool (value : Bool) (stream : DataStream) : Option DataStream :=
  writeFixed .bool (if value then 1 else 0 : Word 1) stream

def writeChar (value : Word 1) : DataStream → Option DataStream := writeFixed .char value
def writeInt16 (value : Word 2) : DataStream → Option DataStream := writeFixed .int16 value
def writeInt32 (value : Word 4) : DataStream → Option DataStream := writeFixed .int32 value
def writeInt64 (value : Word 8) : DataStream → Option DataStream := writeFixed .int64 value
def writeFloat (value : Word 4) : DataStream → Option DataStream := writeFixed .float value
def writeDouble (value : Word 8) : DataStream → Option DataStream := writeFixed .double value

/-- `int len = value.size()` keeps the low 32 bits. -/
def intSize {α : Type} (value : List α) : Word 4 := BitVec.ofNat 32 value.length

def writeString (value : List Byte) (stream : DataStream) : Option DataStream := do
  let stream ← stream.writeBytes [DataType.string.code] 1
  let len := intSize value
  let stream ← stream.writeInt32 len
  stream.writeBytes value len.toInt

/-- `write(const char *)`: the bytes before the terminator. -/
def writeCString (value : List Byte) (stream : DataStream) : Option DataStream := do
  let stream ← stream.writeBytes [DataType.string.code] 1
  let len := intSize (value.takeWhile (· ≠ 0))
  let stream ← stream.writeInt32 len
  stream.writeBytes value len.toInt

/-- The shape shared by the container overloads: tag, count, elements. -/
def writeSequence {α : Type} (type : DataType)
    (writeElem : α → DataStream → Option DataStream) (value : List α)
    (stream : DataStream) : Option DataStream := do
  let stream ← stream.writeBytes [type.code] 1
  let stream ← stream.writeInt32 (intSize value)
  value.foldlM (fun stream elem => writeElem elem stream) stream

section Containers

variable {α β : Type} (writeElem : α → DataStream → Option DataStream)

def writeVector (value : List α) : DataStream → Option DataStream :=
  writeSequence .vector writeElem value

def writeSet (value : List α) : DataStream → Option DataStream :=
  writeSequence .set writeElem value

/-- The tag is `VECTOR`, as in the source. -/
def writeList (value : List α) : DataStream → Option DataStream :=
  writeSequence .vector writeElem value

def writeMap (writeVal : β → DataStream → Option DataStream) (value : List (α × β)) :
    DataStream → Option DataStream :=
  writeSequence .map
    (fun entry stream => do writeVal entry.2 (← writeElem entry.1 stream)) value

end Containers

end DataStream

/-! ## The types of values -/

/-- The C++ types for which an overload can be instantiated. -/
inductive Ty
  | bool | char | int16 | int32 | int64 | float | double | string
  | vector (elem : Ty) | list (elem : Ty) | set (elem : Ty) | map (key val : Ty)
  deriving DecidableEq, Repr

namespace Ty

/-- The outer kind, which selects the overload. -/
def kind : Ty → DataType
  | bool => .bool
  | char => .char
  | int16 => .int16
  | int32 => .int32
  | int64 => .int64
  | float => .float
  | double => .double
  | string => .string
  | vector _ => .vector
  | list _ => .list
  | set _ => .set
  | map _ _ => .map

/-- Floating-point values are their bit patterns; sets and maps are the
sequences their iterators visit. -/
def Value : Ty → Type
  | bool => Bool
  | char => Word 1
  | int16 => Word 2
  | int32 => Word 4
  | int64 => Word 8
  | float => Word 4
  | double => Word 8
  | string => List Byte
  | vector elem => List elem.Value
  | list elem => List elem.Value
  | set elem => List elem.Value
  | map key val => List (key.Value × val.Value)

def decEq : (type : Ty) → DecidableEq type.Value
  | bool => inferInstanceAs (DecidableEq Bool)
  | char => inferInstanceAs (DecidableEq (Word 1))
  | int16 => inferInstanceAs (DecidableEq (Word 2))
  | int32 => inferInstanceAs (DecidableEq (Word 4))
  | int64 => inferInstanceAs (DecidableEq (Word 8))
  | float => inferInstanceAs (DecidableEq (Word 4))
  | double => inferInstanceAs (DecidableEq (Word 8))
  | string => inferInstanceAs (DecidableEq (List Byte))
  | vector elem =>
      have := elem.decEq
      inferInstanceAs (DecidableEq (List elem.Value))
  | list elem =>
      have := elem.decEq
      inferInstanceAs (DecidableEq (List elem.Value))
  | set elem =>
      have := elem.decEq
      inferInstanceAs (DecidableEq (List elem.Value))
  | map key val =>
      have := key.decEq
      have := val.decEq
      inferInstanceAs (DecidableEq (List (key.Value × val.Value)))

instance (type : Ty) : DecidableEq type.Value := type.decEq

/-- IEEE `<` on bit patterns: false on a NaN, else the order of the signed
magnitudes. -/
def floatLt {width : ℕ} (infinity : ℕ) (left right : Word width) : Bool :=
  let magnitude := fun word : Word width => word.toNat % 2 ^ (8 * width - 1)
  let signed := fun word : Word width =>
    if word.msb then -(magnitude word : ℤ) else magnitude word
  magnitude left ≤ infinity && magnitude right ≤ infinity && signed left < signed right

/-- `std::lexicographical_compare`. -/
def lexLt {α : Type} (lt : α → α → Bool) : List α → List α → Bool
  | [], [] => false
  | [], _ :: _ => true
  | _ :: _, [] => false
  | left :: lefts, right :: rights =>
      lt left right || (!lt right left && lexLt lt lefts rights)

/-- `operator<`, by which `std::set` and `std::map` order their keys. -/
def lt : (type : Ty) → type.Value → type.Value → Bool
  | bool => fun left right => !left && right
  | char => fun left right => BitVec.slt left right
  | int16 => fun left right => BitVec.slt left right
  | int32 => fun left right => BitVec.slt left right
  | int64 => fun left right => BitVec.slt left right
  | float => floatLt 0x7f800000
  | double => floatLt 0x7ff0000000000000
  | string => lexLt fun left right => BitVec.ult left right
  | vector elem => lexLt elem.lt
  | list elem => lexLt elem.lt
  | set elem => lexLt elem.lt
  | map key val => lexLt fun left right =>
      key.lt left.1 right.1 || (!key.lt right.1 left.1 && val.lt left.2 right.2)

/-- Overload resolution for `write`. -/
def write : (type : Ty) → type.Value → DataStream → Option DataStream
  | bool => DataStream.writeBool
  | char => DataStream.writeChar
  | int16 => DataStream.writeInt16
  | int32 => DataStream.writeInt32
  | int64 => DataStream.writeInt64
  | float => DataStream.writeFloat
  | double => DataStream.writeDouble
  | string => DataStream.writeString
  | vector elem => DataStream.writeVector elem.write
  | list elem => DataStream.writeList elem.write
  | set elem => DataStream.writeSet elem.write
  | map key val => DataStream.writeMap key.write val.write

end Ty

/-! ## Reading -/

/-- What the program does not determine: the memory around the buffer and the
successive values found in uninitialised scalar locals. -/
structure Env where
  outside : ℤ → Byte
  indeterminate : ℕ → Word 8

/-- A stream under a reader, with two ghost fields: whether an index outside
the buffer has been read, and how many uninitialised locals were declared. -/
structure ReadState where
  stream : DataStream
  outOfBounds : Bool
  declared : ℕ

abbrev ReadM := StateM ReadState

namespace DataStream

variable (env : Env)

/-- `m_buf[index]`. -/
def byteAt (stream : DataStream) (index : ℤ) : Byte :=
  if 0 ≤ index ∧ index < stream.mBuf.length then stream.mBuf.getD index.toNat 0
  else env.outside index

def Inside (stream : DataStream) (count : ℕ) : Prop :=
  count = 0 ∨ (0 ≤ stream.mPos ∧ stream.mPos + count ≤ stream.mBuf.length)

instance (stream : DataStream) (count : ℕ) : Decidable (stream.Inside count) :=
  inferInstanceAs (Decidable (_ ∨ _))

/-- The `count` bytes from the cursor on. -/
def load (count : ℕ) : ReadM (List Byte) := fun state =>
  ((List.range count).map fun offset : ℕ => byteAt env state.stream (state.stream.mPos + offset),
    { state with outOfBounds := state.outOfBounds || !decide (state.stream.Inside count) })

def advance (len : ℤ) : ReadM Unit :=
  modify fun state => { state with stream.mPos := state.stream.mPos + len }

/-- A scalar local without an initialiser. -/
def declareWord (width : ℕ) : ReadM (Word width) := fun state =>
  ((env.indeterminate state.declared).setWidth _, { state with declared := state.declared + 1 })

/-- The scalar overloads differ only in the tag and in the width. -/
def readFixed (type : DataType) {width : ℕ} (value : Word width) :
    ReadM (Bool × Word width) := do
  if (← load env 1) ≠ [type.code] then return (false, value)
  advance 1
  let bytes ← load env width
  advance width
  return (true, decodeWord width bytes)

/-- Any non-zero byte converts to `true`. -/
def readBool (value : Bool) : ReadM (Bool × Bool) := do
  if (← load env 1) ≠ [DataType.bool.code] then return (false, value)
  advance 1
  let bytes ← load env 1
  advance 1
  return (true, decide (decodeWord 1 bytes ≠ 0))

def readChar (value : Word 1) : ReadM (Bool × Word 1) := readFixed env .char value
def readInt16 (value : Word 2) : ReadM (Bool × Word 2) := readFixed env .int16 value
def readInt32 (value : Word 4) : ReadM (Bool × Word 4) := readFixed env .int32 value
def readInt64 (value : Word 8) : ReadM (Bool × Word 8) := readFixed env .int64 value
def readFloat (value : Word 4) : ReadM (Bool × Word 4) := readFixed env .float value
def readDouble (value : Word 8) : ReadM (Bool × Word 8) := readFixed env .double value

/-- `int len; read(len);` with the result of the read ignored. -/
def readLen : ReadM (Word 4) := do
  let len ← declareWord env 4
  let (_, len) ← readInt32 env len
  return len

def readString (value : List Byte) : ReadM (Bool × List Byte) := do
  if (← load env 1) ≠ [DataType.string.code] then return (false, value)
  advance 1
  let len ← readLen env
  if len.toInt < 0 then return (false, value)
  let bytes ← load env len.toInt.toNat
  advance len.toInt
  return (true, bytes)

/-- `T v; read(v);` with the result of the read ignored. -/
def readNew {α : Type} (declare : ReadM α) (readElem : α → ReadM (Bool × α)) : ReadM α := do
  let elem ← declare
  let (_, elem) ← readElem elem
  return elem

/-- `count` rounds of a container's loop: read an element, then store it. -/
def readElements {α σ : Type} (readOne : ReadM α) (store : σ → α → σ) : ℕ → σ → ReadM σ
  | 0, acc => return acc
  | count + 1, acc => do
      let elem ← readOne
      readElements readOne store count (store acc elem)

/-- The shape shared by the reads of vectors, lists and sets.  The destination
is cleared first, and the cursor finally moves on by the element count. -/
def readSequence {α : Type} (type : DataType) (readOne : ReadM α)
    (store : List α → α → List α) : ReadM (Bool × List α) := do
  if (← load env 1) ≠ [type.code] then return (false, [])
  advance 1
  let len ← readLen env
  let value ← readElements readOne store len.toInt.toNat []
  advance len.toInt
  return (true, value)

section Containers

variable {α β : Type} (readOne : ReadM α)

def readVector : ReadM (Bool × List α) :=
  readSequence env .vector readOne fun value elem => value ++ [elem]

def readList : ReadM (Bool × List α) :=
  readSequence env .list readOne fun value elem => value ++ [elem]

/-- `std::set::insert`: nothing happens if an equivalent key is present. -/
def insertKey (lt : α → α → Bool) (elem : α) : List α → List α
  | [] => [elem]
  | head :: tail =>
      if lt elem head then elem :: head :: tail
      else if lt head elem then head :: insertKey lt elem tail
      else head :: tail

def readSet (lt : α → α → Bool) : ReadM (Bool × List α) :=
  readSequence env .set readOne fun value elem => insertKey lt elem value

/-- `value[key] = val` on a `std::map`. -/
def assignKey (lt : α → α → Bool) (key : α) (val : β) : List (α × β) → List (α × β)
  | [] => [(key, val)]
  | head :: tail =>
      if lt key head.1 then (key, val) :: head :: tail
      else if lt head.1 key then head :: assignKey lt key val tail
      else (head.1, val) :: tail

/-- The loop counter of the source advances by two for every entry it reads. -/
def readMap (lt : α → α → Bool) (readVal : ReadM β) : ReadM (Bool × List (α × β)) := do
  if (← load env 1) ≠ [DataType.map.code] then return (false, [])
  advance 1
  let len ← readLen env
  let value ← readElements
    (do
      let key ← readOne
      let val ← readVal
      return (key, val))
    (fun value entry => assignKey lt entry.1 entry.2 value)
    ((len.toInt.toNat + 1) / 2) []
  advance len.toInt
  return (true, value)

end Containers

end DataStream

namespace Ty

variable (env : Env)

/-- `T v;`: class types are default-constructed, scalars are indeterminate. -/
def declare : (type : Ty) → ReadM type.Value
  | bool => do return decide ((← DataStream.declareWord env 1) ≠ 0)
  | char => DataStream.declareWord env 1
  | int16 => DataStream.declareWord env 2
  | int32 => DataStream.declareWord env 4
  | int64 => DataStream.declareWord env 8
  | float => DataStream.declareWord env 4
  | double => DataStream.declareWord env 8
  | string => return []
  | vector _ => return []
  | list _ => return []
  | set _ => return []
  | map _ _ => return []

/-- Overload resolution for `read`; the argument is the destination's old value. -/
def read : (type : Ty) → type.Value → ReadM (Bool × type.Value)
  | bool => DataStream.readBool env
  | char => DataStream.readChar env
  | int16 => DataStream.readInt16 env
  | int32 => DataStream.readInt32 env
  | int64 => DataStream.readInt64 env
  | float => DataStream.readFloat env
  | double => DataStream.readDouble env
  | string => DataStream.readString env
  | vector elem => fun _ => DataStream.readVector env (DataStream.readNew (elem.declare env) elem.read)
  | list elem => fun _ => DataStream.readList env (DataStream.readNew (elem.declare env) elem.read)
  | set elem => fun _ =>
      DataStream.readSet env (DataStream.readNew (elem.declare env) elem.read) elem.lt
  | map key val => fun _ =>
      DataStream.readMap env (DataStream.readNew (key.declare env) key.read) key.lt
        (DataStream.readNew (val.declare env) val.read)

end Ty

/-- A reader at the stream's cursor. -/
def DataStream.reader (stream : DataStream) : ReadState := ⟨stream, false, 0⟩

end CppProjects
