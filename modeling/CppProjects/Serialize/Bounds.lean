import CppProjects.Serialize.Course
import CppProjects.Serialize.TypeTags

/-!
# What is read from any buffer

A record is a tag with a payload of the length its type or its count asks for.
Whether a read stays inside the buffer and accepts nothing but a record is decided
by the bytes at the cursor.
-/

namespace CppProjects

open LittleEndian DataStream

/-! ## Records -/

def FixedRecord (type : DataType) (width : ℕ) (bytes : List Byte) : Prop :=
  ∃ payload : List Byte, payload.length = width ∧ bytes = type.code :: payload

/-- A tag, a count that is not negative, and what it counts. -/
def CountedRecord (type : DataType) (counted : ℕ → List Byte → Prop) (bytes : List Byte) : Prop :=
  ∃ word payload : List Byte, word.length = 4 ∧ 0 ≤ (decodeWord 4 word).toInt ∧
    counted (decodeWord 4 word).toInt.toNat payload ∧
    bytes = type.code :: DataType.int32.code :: (word ++ payload)

def Repeats (item : List Byte → Prop) (len : ℕ) (bytes : List Byte) : Prop :=
  ∃ items : List (List Byte), items.length = len ∧ (∀ one ∈ items, item one) ∧
    bytes = items.flatten

namespace Ty

/-- The records of a type, under the tag that `read` asks for. -/
def Record : Ty → List Byte → Prop
  | bool => FixedRecord .bool 1
  | char => FixedRecord .char 1
  | int16 => FixedRecord .int16 2
  | int32 => FixedRecord .int32 4
  | int64 => FixedRecord .int64 8
  | float => FixedRecord .float 4
  | double => FixedRecord .double 8
  | string => CountedRecord .string fun len bytes => bytes.length = len
  | vector elem => CountedRecord .vector (Repeats elem.Record)
  | list elem => CountedRecord .list (Repeats elem.Record)
  | set elem => CountedRecord .set (Repeats elem.Record)
  | map key val => CountedRecord .map (Repeats fun bytes =>
      ∃ first second, key.Record first ∧ val.Record second ∧ bytes = first ++ second)

/-- The bytes are neither truncated nor corrupt: a whole record comes first. -/
def Intact (type : Ty) (bytes : List Byte) : Prop := ∃ record, type.Record record ∧ record <+: bytes

variable {type : Ty} {old : type.Value} {stream : DataStream}

end Ty

end CppProjects
