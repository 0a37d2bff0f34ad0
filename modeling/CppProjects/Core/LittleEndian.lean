import Mathlib.Tactic

/-!
# Little-endian words

Fixed-width words are stored least-significant byte first.  The layout is
described once on natural numbers; a word of `width` bytes is a bit vector of
`8 * width` bits, so every width used by a byte stream is an instance of the
same round trip.
-/

namespace CppProjects.LittleEndian

abbrev Byte := BitVec 8

/-- A word of `width` bytes. -/
abbrev Word (width : ℕ) := BitVec (8 * width)

/-- The `width` low-order bytes of `value`, least significant first. -/
def toBytes : ℕ → ℕ → List Byte
  | 0, _ => []
  | width + 1, value => BitVec.ofNat 8 value :: toBytes width (value / 256)

/-- The number whose base-256 digits are `bytes`. -/
def ofBytes : List Byte → ℕ
  | [] => 0
  | byte :: bytes => byte.toNat + 256 * ofBytes bytes

@[simp]
theorem length_toBytes (width value : ℕ) : (toBytes width value).length = width := by
  induction width generalizing value with
  | zero => rfl
  | succ width ih => simp [toBytes, ih]

/-- Reading back the stored bytes loses exactly what lies above the width. -/
theorem ofBytes_toBytes (width value : ℕ) :
    ofBytes (toBytes width value) = value % 256 ^ width := by
  induction width generalizing value with
  | zero => simp [toBytes, ofBytes, Nat.mod_one]
  | succ width ih =>
      have hbyte : (BitVec.ofNat 8 value).toNat = value % 256 := by
        simp [BitVec.toNat_ofNat]
      rw [toBytes, ofBytes, ih, hbyte, pow_succ', Nat.mod_mul]

def encodeWord {width : ℕ} (word : Word width) : List Byte :=
  toBytes width word.toNat

def decodeWord (width : ℕ) (bytes : List Byte) : Word width :=
  BitVec.ofNat (8 * width) (ofBytes bytes)

@[simp]
theorem length_encodeWord {width : ℕ} (word : Word width) :
    (encodeWord word).length = width :=
  length_toBytes width word.toNat

@[simp]
theorem decodeWord_encodeWord {width : ℕ} (word : Word width) :
    decodeWord width (encodeWord word) = word := by
  have hbound : word.toNat < 256 ^ width := by
    have hlt := word.isLt
    rwa [pow_mul] at hlt
  apply BitVec.eq_of_toNat_eq
  rw [decodeWord, BitVec.toNat_ofNat, encodeWord, ofBytes_toBytes, Nat.mod_eq_of_lt hbound,
    Nat.mod_eq_of_lt word.isLt]

end CppProjects.LittleEndian
