import CppProjects.Serialize.FlatRoundTrip
import CppProjects.Serialize.TypeTags

/-!
# What a successful write stores

`write` of a scalar or a string, if it succeeds, appends one record.  A string of
`2^31` bytes or more is cut down to the low 32 bits of its length, so the record may
hold another value than the one written.
-/

namespace CppProjects

open LittleEndian CInt DataStream

namespace DataStream

/-- `write`, where it succeeds, appends `bytes`. -/
def Leaves (write : DataStream → Option DataStream) (bytes : List Byte) : Prop :=
  ∀ stream stream', write stream = some stream' → stream.Appends bytes stream'

theorem Leaves.bind {first second : DataStream → Option DataStream} {left right : List Byte}
    (hfirst : Leaves first left) (hsecond : Leaves second right) :
    Leaves (fun stream => do second (← first stream)) (left ++ right) := by
  intro stream final hrun
  obtain ⟨middle, hmiddle, hfinal⟩ := Option.bind_eq_some_iff.mp hrun
  exact (hfirst stream middle hmiddle).trans (hsecond middle final hfinal)

/-- Only the first `len` bytes are looked at. -/
theorem writeBytes_append (data rest : List Byte) {len : ℤ} (hlen : len ≤ data.length) :
    writeBytes (data ++ rest) len = writeBytes data len := by
  funext stream
  have htake : (data ++ rest).take len.toNat = data.take len.toNat :=
    List.take_append_of_le_length (by omega)
  have hbad : (len < 0 ∨ ((data ++ rest).length : ℤ) < len) ↔ (len < 0 ∨ (data.length : ℤ) < len) := by
    rw [List.length_append]
    omega
  rw [writeBytes, writeBytes, htake, if_congr hbad rfl rfl]

/-- The count that is kept of a length is never more than it. -/
theorem toInt_intSize_le {α : Type} (value : List α) : (intSize value).toInt ≤ value.length := by
  have hnat : (intSize value).toNat ≤ value.length := by
    rw [intSize, BitVec.toNat_ofNat]
    exact Nat.mod_le _ _
  rw [BitVec.toInt_eq_toNat_cond]
  split_ifs <;> omega

/-- A C string is written as the string of its bytes. -/
theorem writeCString_eq (value : List Byte) : writeCString value = writeString (value.takeWhile (· ≠ 0)) := by
  have hsplit : value = value.takeWhile (· ≠ 0) ++ value.dropWhile (· ≠ 0) :=
    List.takeWhile_append_dropWhile.symm
  funext stream
  rw [writeCString, writeString]
  dsimp only
  have hbytes := writeBytes_append (value.takeWhile (· ≠ 0)) (value.dropWhile (· ≠ 0))
    (toInt_intSize_le (value.takeWhile (· ≠ 0)))
  rw [← hsplit] at hbytes
  rw [hbytes]

/-- Writing one after another leaves the bytes one after another. -/
theorem leaves_foldlM {α : Type} {writeElem : α → DataStream → Option DataStream}
    {bytes : α → List Byte} (value : List α)
    (helem : ∀ elem ∈ value, Leaves (writeElem elem) (bytes elem)) :
    Leaves (fun stream => value.foldlM (fun stream elem => writeElem elem stream) stream)
      (value.flatMap bytes) := by
  induction value with
  | nil =>
      intro stream stream' hwrite
      cases hwrite
      exact ⟨by simp, rfl⟩
  | cons elem value ih =>
      have hrest := ih fun other hother => helem other (List.mem_cons_of_mem elem hother)
      exact (helem elem List.mem_cons_self).bind hrest

theorem leaves_tag (type : DataType) : Leaves (writeBytes [type.code] 1) [type.code] :=
  fun _ _ hwrite => (appends_of_writeBytes hwrite).2.2

theorem leaves_writeSequence {α : Type} (type : DataType)
    {writeElem : α → DataStream → Option DataStream} {bytes : α → List Byte} (value : List α)
    (helem : ∀ elem ∈ value, Leaves (writeElem elem) (bytes elem)) :
    Leaves (writeSequence type writeElem value)
      (type.code :: (encodeLen value ++ value.flatMap bytes)) :=
  (leaves_tag type).bind
    (Leaves.bind (fun _ _ hwrite => appends_of_writeFixed hwrite) (leaves_foldlM value helem))

end DataStream

namespace Ty

/-- The value of the record that `write` appends. -/
def stored : (type : Ty) → type.Value → type.Value
  | string => fun (value : List Byte) => value.take (intSize value).toInt.toNat
  | _ => fun value => value

/-- Short enough for a read of its record. -/
def Short : (type : Ty) → type.Value → Prop
  | string => fun (value : List Byte) => value.length < 2 ^ 31
  | _ => fun _ => True

instance : (type : Ty) → DecidablePred type.Short
  | string => fun (value : List Byte) => inferInstanceAs (Decidable (value.length < 2 ^ 31))
  | bool | char | int16 | int32 | int64 | float | double => fun _ => inferInstanceAs (Decidable True)
  | vector _ | list _ | set _ | map _ _ => fun _ => inferInstanceAs (Decidable True)

theorem short_stored (type : Ty) (value : type.Value) : type.Short (type.stored value) := by
  cases type with
  | string =>
      have hlength := List.length_take_le (intSize (α := Byte) value).toInt.toNat value
      have hint := BitVec.toInt_lt (x := intSize (α := Byte) value)
      change (List.take (intSize (α := Byte) value).toInt.toNat value).length < 2 ^ 31
      omega
  | _ => trivial

/-- Only a short value is stored as it is. -/
theorem stored_eq_iff (type : Ty) (value : type.Value) :
    type.stored value = value ↔ type.Short value := by
  constructor
  · intro hstored
    rw [← hstored]
    exact type.short_stored value
  · intro hshort
    cases type with
    | string =>
        have hlen := toInt_intSize (α := Byte) value hshort
        exact List.take_of_length_le (by omega)
    | _ => rfl

/-- The count that is written fits the bytes that are written. -/
theorem encodeLen_stored (value : List Byte) (hpos : 0 ≤ (intSize value).toInt)
    (hle : (intSize value).toInt ≤ value.length) :
    encodeLen (value.take (intSize value).toInt.toNat) = encodeLen value := by
  have hlength : (value.take (intSize value).toInt.toNat).length = (intSize value).toInt.toNat := by
    rw [List.length_take]
    omega
  have hsize : intSize (value.take (intSize value).toInt.toNat) = intSize value := by
    apply BitVec.eq_of_toInt_eq
    rw [toInt_intSize _ (by have := BitVec.toInt_lt (x := intSize value); omega), hlength]
    omega
  rw [encodeLen, hsize]
  rfl

/-- A write of a scalar or a string appends the record of the value it stores. -/
theorem leaves_write_flat (type : Ty) (hflat : type.isFlat) (value : type.Value) :
    Leaves (type.write value) (type.encode (type.stored value)) := by
  intro stream stream' hwrite
  cases type with
  | bool | char | int16 | int32 | int64 | float | double => exact appends_of_writeFixed hwrite
  | string =>
      obtain ⟨hpos, hle, happends⟩ := appends_of_writeString hwrite
      rw [← encodeLen_stored value hpos hle] at happends
      exact happends
  | vector | list | set | map => simp [isFlat] at hflat

/-- The record of a short value is read, whatever the destination holds. -/
theorem consumes_short (env : Env) (type : Ty) (hflat : type.isFlat) (old value : type.Value)
    (hshort : type.Short value) :
    Consumes (type.read env old) (type.encode value) 0 (true, value) := by
  cases type with
  | bool => exact consumes_readBool env old value
  | char | int16 | int32 | int64 | float | double => exact consumes_readFixed env _ old value
  | string => exact consumes_readString env old value hshort
  | vector | list | set | map => simp [isFlat] at hflat

end Ty

end CppProjects
