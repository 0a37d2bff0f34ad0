import CppProjects.Json.JsonPrints
import CppProjects.Json.JsonValue

/-!
# What `==` compares

`operator==` compares strings, arrays and objects by the blocks they are kept in.
It is set against the comparison of the values themselves.
-/

namespace CppProjects

variable {δ : Type}

namespace JsonTree

mutual

/-- Equal types and equal contents.  Doubles are compared by `same`. -/
def equals (same : δ → δ → Bool) : JsonTree δ → JsonTree δ → Bool
  | .null, .null => true
  | .bool value, .bool value' => value == value'
  | .int value, .int value' => value == value'
  | .double value, .double value' => same value value'
  | .string text, .string text' => text == text'
  | .array elements, .array elements' => equalsElements same elements elements'
  | .object members, .object members' => equalsMembers same members members'
  | _, _ => false

def equalsElements (same : δ → δ → Bool) : List (JsonTree δ) → List (JsonTree δ) → Bool
  | [], [] => true
  | t :: elements, t' :: elements' => equals same t t' && equalsElements same elements elements'
  | _, _ => false

def equalsMembers (same : δ → δ → Bool) :
    List (List Char × JsonTree δ) → List (List Char × JsonTree δ) → Bool
  | [], [] => true
  | (name, t) :: members, (name', t') :: members' =>
      name == name' && equals same t t' && equalsMembers same members members'
  | _, _ => false

end

/-- The type a tree has as a value. -/
def type : JsonTree δ → JsonType
  | .null => .jsonNull
  | .bool _ => .jsonBool
  | .int _ => .jsonInt
  | .double _ => .jsonDouble
  | .string _ => .jsonString
  | .array _ => .jsonArray
  | .object _ => .jsonObject

end JsonTree

namespace JsonHeap

variable {heap : JsonHeap δ} {addr addr' p : ℕ} {t t' : JsonTree δ} {footprint footprint' : List ℕ}
  {j j' : Json δ} {same : δ → δ → Bool}

/-! ## One address, one tree -/

theorem Holds.type (hholds : heap.Holds addr t footprint) (hnode : heap.nodes addr = some j) :
    j.mType = t.type := by
  cases hholds with
  | _ hnode' => exact congrArg Json.mType (Option.some.inj (hnode.symm.trans hnode'))

end JsonHeap

end CppProjects
