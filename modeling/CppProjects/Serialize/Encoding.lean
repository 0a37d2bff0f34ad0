import CppProjects.Serialize.DataStream

/-!
# The byte format

`encode` is the layout the writers are meant to produce: a tag byte followed
by a payload, with counts stored as nested `int32` records.  Every overload of
`write` appends exactly this layout as long as the buffer stays within `2^30`
bytes, which is what keeps the `int` arithmetic of `reserve` free of overflow.
-/

namespace CppProjects

open LittleEndian CInt

def encodeFixed (type : DataType) {width : ℕ} (value : Word width) : List Byte :=
  type.code :: encodeWord value

def encodeLen {α : Type} (value : List α) : List Byte :=
  encodeFixed .int32 (DataStream.intSize value)

def encodeSequence {α : Type} (type : DataType) (encodeElem : α → List Byte)
    (value : List α) : List Byte :=
  type.code :: (encodeLen value ++ value.flatMap encodeElem)

/-- The layout of a value; a list carries the tag of a vector. -/
def Ty.encode : (type : Ty) → type.Value → List Byte
  | bool => fun (value : Bool) => encodeFixed .bool (if value then 1 else 0 : Word 1)
  | char => encodeFixed .char
  | int16 => encodeFixed .int16
  | int32 => encodeFixed .int32
  | int64 => encodeFixed .int64
  | float => encodeFixed .float
  | double => encodeFixed .double
  | string => fun (value : List Byte) => DataType.string.code :: (encodeLen value ++ value)
  | vector elem => encodeSequence .vector elem.encode
  | list elem => encodeSequence .vector elem.encode
  | set elem => encodeSequence .set elem.encode
  | map key val => encodeSequence .map fun entry => key.encode entry.1 ++ val.encode entry.2

@[simp]
theorem length_encodeFixed (type : DataType) {width : ℕ} (value : Word width) :
    (encodeFixed type value).length = 1 + width := by
  simp [encodeFixed, Nat.add_comm]

@[simp]
theorem length_encodeLen {α : Type} (value : List α) : (encodeLen value).length = 5 := by
  simp [encodeLen]

@[simp]
theorem Ty.length_encode_string (value : List Byte) :
    (Ty.string.encode value).length = 6 + value.length := by
  have hlen : (DataType.string.code :: (encodeLen value ++ value)).length = 6 + value.length := by
    simp only [List.length_cons, List.length_append, length_encodeLen]
    omega
  exact hlen

/-- A count below `2^31` survives the narrowing to `int`. -/
theorem toInt_intSize {α : Type} (value : List α) (hbound : value.length < 2 ^ 31) :
    (DataStream.intSize value).toInt = value.length := by
  have hnat : (DataStream.intSize value).toNat = value.length := by
    simp [DataStream.intSize]
    omega
  rw [BitVec.toInt_eq_toNat_of_lt (by omega), hnat]

namespace DataStream

/-- `stream'` is `stream` with `bytes` appended; only the capacity may differ
besides. -/
def Appends (stream : DataStream) (bytes : List Byte) (stream' : DataStream) : Prop :=
  stream'.mBuf = stream.mBuf ++ bytes ∧ stream'.mPos = stream.mPos

theorem Appends.trans {stream middle final : DataStream} {left right : List Byte}
    (hleft : stream.Appends left middle) (hright : middle.Appends right final) :
    stream.Appends (left ++ right) final := by
  obtain ⟨hbuf, hpos⟩ := hleft
  obtain ⟨hbuf', hpos'⟩ := hright
  exact ⟨by rw [hbuf', hbuf, List.append_assoc], hpos'.trans hpos⟩

/-- The largest buffer for which the doubling loop cannot overflow. -/
def sizeBound : ℕ := 2 ^ 30

/-- `write` appends `bytes` to every stream on which they fit. -/
def Writes (write : DataStream → Option DataStream) (bytes : List Byte) : Prop :=
  ∀ stream : DataStream, stream.mBuf.length + bytes.length ≤ sizeBound →
    ∃ stream', write stream = some stream' ∧ stream.Appends bytes stream'

theorem Writes.bind {first second : DataStream → Option DataStream} {left right : List Byte}
    (hfirst : Writes first left) (hsecond : Writes second right) :
    Writes (fun stream => do second (← first stream)) (left ++ right) := by
  intro stream hfits
  rw [List.length_append] at hfits
  obtain ⟨middle, hmiddle, happends⟩ := hfirst stream (by omega)
  have hlength : middle.mBuf.length = stream.mBuf.length + left.length := by
    rw [happends.1, List.length_append]
  obtain ⟨final, hfinal, happends'⟩ := hsecond middle (by omega)
  refine ⟨final, ?_, happends.trans happends'⟩
  simp [hmiddle, hfinal]

theorem Writes.nil : Writes some [] := fun stream _ =>
  ⟨stream, rfl, by simp, rfl⟩

/-- Doubling a capacity that is below a bound of `2^30` never overflows. -/
theorem growCap_isSome (need cap : ℕ) (hneed : need ≤ sizeBound) :
    (growCap need cap).isSome := by
  fun_induction growCap need cap with
  | case1 hgrow ih => exact ih
  | case2 cap hgrow hzero hfits ih => exact ih
  | case3 cap hgrow hzero hoverflow =>
      simp only [sizeBound, intMax] at hneed hoverflow
      omega
  | case4 cap hgrow => rfl

theorem reserve_isSome (stream : DataStream) (len : ℕ)
    (hfits : stream.mBuf.length + len ≤ sizeBound) :
    ∃ stream', stream.reserve len = some stream' ∧ stream.Appends [] stream' := by
  have hsize : ¬stream.mBuf.length + len > intMax := by
    simp only [sizeBound, intMax] at hfits ⊢
    omega
  by_cases hgrow : stream.mBuf.length + len > stream.capacity
  · obtain ⟨cap, hcap⟩ := Option.isSome_iff_exists.mp
      (growCap_isSome _ stream.capacity hfits)
    exact ⟨{ stream with capacity := cap }, by simp [reserve, hsize, hgrow, hcap],
      by simp, rfl⟩
  · exact ⟨stream, by simp only [reserve, hsize, hgrow, if_false], by simp, rfl⟩

theorem writes_writeBytes (data : List Byte) (len : ℤ) (hlen : len = data.length) :
    Writes (writeBytes data len) data := by
  subst hlen
  intro stream hfits
  obtain ⟨middle, hreserve, hbuf, hpos⟩ := reserve_isSome stream data.length hfits
  refine ⟨{ middle with mBuf := middle.mBuf ++ data }, ?_, by simp [hbuf], hpos⟩
  have hlen : ¬((data.length : ℤ) < 0 ∨ (data.length : ℤ) < data.length) := by omega
  simp [writeBytes, hreserve]

theorem writes_writeFixed (type : DataType) {width : ℕ} (value : Word width) :
    Writes (writeFixed type value) (encodeFixed type value) :=
  (writes_writeBytes [type.code] 1 rfl).bind
    (writes_writeBytes (encodeWord value) width (by simp))

theorem writes_writeString (value : List Byte) :
    Writes (writeString value) (DataType.string.code :: (encodeLen value ++ value)) := by
  intro stream hfits
  have hlen : (intSize value).toInt = value.length := by
    apply toInt_intSize
    simp only [sizeBound, List.length_cons, List.length_append] at hfits
    omega
  exact (writes_writeBytes [DataType.string.code] 1 rfl).bind
    ((writes_writeFixed .int32 (intSize value)).bind (writes_writeBytes value _ hlen))
    stream hfits

/-- Writing the elements one after another appends their encodings in order. -/
theorem writes_foldlM {α : Type} {writeElem : α → DataStream → Option DataStream}
    {encodeElem : α → List Byte} (helem : ∀ elem, Writes (writeElem elem) (encodeElem elem))
    (value : List α) :
    Writes (fun stream => value.foldlM (fun stream elem => writeElem elem stream) stream)
      (value.flatMap encodeElem) := by
  induction value with
  | nil => exact Writes.nil
  | cons elem value ih => exact (helem elem).bind ih

theorem writes_writeSequence {α : Type} (type : DataType)
    {writeElem : α → DataStream → Option DataStream} {encodeElem : α → List Byte}
    (helem : ∀ elem, Writes (writeElem elem) (encodeElem elem)) (value : List α) :
    Writes (writeSequence type writeElem value) (encodeSequence type encodeElem value) :=
  (writes_writeBytes [type.code] 1 rfl).bind
    ((writes_writeFixed .int32 (intSize value)).bind (writes_foldlM helem value))

end DataStream

/-- Every overload of `write` appends the encoding of its argument. -/
theorem Ty.writes_write (type : Ty) (value : type.Value) :
    DataStream.Writes (type.write value) (type.encode value) := by
  induction type with
  | bool | char | int16 | int32 | int64 | float | double =>
      exact DataStream.writes_writeFixed _ _
  | string => exact DataStream.writes_writeString value
  | vector elem ih | list elem ih | set elem ih =>
      exact DataStream.writes_writeSequence _ ih value
  | map key val ihKey ihVal =>
      exact DataStream.writes_writeSequence .map
        (fun entry => (ihKey entry.1).bind (ihVal entry.2)) value

end CppProjects
