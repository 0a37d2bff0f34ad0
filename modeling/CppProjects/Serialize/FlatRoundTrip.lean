import CppProjects.Serialize.Decoding

/-!
# Round trip of flat streams

A program that writes scalars and strings one after another, and then reads
them back with the same overloads in the same order, gets every value back and
stops at the end of the buffer.
-/

namespace CppProjects

open DataStream

/-- Scalars and strings. -/
def Ty.isFlat : Ty → Bool
  | .bool | .char | .int16 | .int32 | .int64 | .float | .double | .string => true
  | .vector _ | .list _ | .set _ | .map _ _ => false

/-- A value that is written, and the object it is later read into. -/
structure Field where
  type : Ty
  flat : type.isFlat
  value : type.Value
  old : type.Value

namespace Field

/-- The size of the record the field occupies in the stream. -/
def size (field : Field) : ℕ := (field.type.encode field.value).length

def writeAll (fields : List Field) (stream : DataStream) : Option DataStream :=
  fields.foldlM (fun stream field => field.type.write field.value stream) stream

/-- The results and the values of the reads, in order. -/
def readAll (env : Env) : List Field → ReadM (List (Bool × Σ type : Ty, type.Value))
  | [] => return []
  | field :: fields => do
      let (ok, value) ← field.type.read env field.old
      let results ← readAll env fields
      return (ok, ⟨field.type, value⟩) :: results

/-- What a faithful reader of the fields reports. -/
def expected (fields : List Field) : List (Bool × Σ type : Ty, type.Value) :=
  fields.map fun field => (true, ⟨field.type, field.value⟩)

end Field

/-- A scalar or string record is read back exactly, whatever the destination
held before. -/
theorem Ty.consumes_flat (env : Env) (type : Ty) (hflat : type.isFlat) (old value : type.Value)
    (hsize : (type.encode value).length ≤ sizeBound) :
    Consumes (type.read env old) (type.encode value) 0 (true, value) := by
  cases type with
  | bool => exact consumes_readBool env old value
  | char | int16 | int32 | int64 | float | double => exact consumes_readFixed env _ old value
  | string =>
      refine consumes_readString env old value ?_
      rw [Ty.length_encode_string value, sizeBound] at hsize
      omega
  | vector | list | set | map => simp [Ty.isFlat] at hflat

theorem Field.writes_writeAll (fields : List Field) :
    Writes (Field.writeAll fields) (fields.flatMap fun field => field.type.encode field.value) :=
  writes_foldlM (fun field => field.type.writes_write field.value) fields

/-- The position invariant of a flat stream: after each read the cursor stands
at the start of the next record. -/
theorem Field.consumes_readAll (env : Env) (fields : List Field)
    (hsize : ∀ field ∈ fields, field.size ≤ sizeBound) :
    Consumes (Field.readAll env fields)
      (fields.flatMap fun field => field.type.encode field.value) 0 (Field.expected fields) := by
  induction fields with
  | nil => exact Consumes.pure []
  | cons field fields ih =>
      have hhead := field.type.consumes_flat env field.flat field.old field.value
        (hsize field (by simp))
      have htail := ih fun other hother => hsize other (by simp [hother])
      have hrest : Consumes (Field.readAll env fields >>= fun results =>
          Pure.pure ((true, ⟨field.type, field.value⟩) :: results)) _ _ _ :=
        htail.bind (Consumes.pure _)
      rw [List.append_nil] at hrest
      exact hhead.bind hrest

/-- Every read succeeds and yields the value written, no byte outside the
buffer is touched, and the cursor ends at the end of the buffer. -/
theorem flat_round_trip (env : Env) (fields : List Field)
    (hsize : (fields.map Field.size).sum ≤ 2 ^ 30) :
    ∃ stream, Field.writeAll fields fresh = some stream ∧
      (Field.readAll env fields stream.reader).1 = Field.expected fields ∧
      (Field.readAll env fields stream.reader).2.stream.mPos = stream.mBuf.length ∧
      (Field.readAll env fields stream.reader).2.outOfBounds = false := by
  have hlength : (fields.flatMap fun field => field.type.encode field.value).length =
      (fields.map Field.size).sum := by
    rw [List.length_flatMap]
    rfl
  obtain ⟨stream, hwrite, hbuf, hpos⟩ := Field.writes_writeAll fields fresh (by
    rw [hlength]
    simpa [fresh, sizeBound] using hsize)
  have hfield : ∀ field ∈ fields, field.size ≤ sizeBound := by
    intro field hfield
    exact (List.le_sum_of_mem (List.mem_map_of_mem hfield)).trans hsize
  obtain ⟨final, hrun, hstream, hflag⟩ := Field.consumes_readAll env fields hfield [] []
    stream.reader (by simpa [fresh, reader] using hbuf) (by simpa [fresh, reader] using hpos)
  refine ⟨stream, hwrite, ?_⟩
  rw [hrun]
  refine ⟨rfl, ?_, hflag⟩
  rw [hstream, hbuf]
  simp [fresh]

def threeFields : List Field :=
  [⟨.bool, rfl, true, false⟩, ⟨.int16, rfl, (0x8001 : LittleEndian.Word 2), (0 : LittleEndian.Word 2)⟩,
    ⟨.string, rfl, ([0, 0x61] : List LittleEndian.Byte), ([] : List LittleEndian.Byte)⟩]

/-- A `bool`, a negative `int16` and a string that begins with a NUL byte. -/
theorem flat_round_trip_threeFields :
    ∃ stream, Field.writeAll threeFields fresh = some stream ∧
      (Field.readAll ⟨fun _ => 0, fun _ => 0⟩ threeFields stream.reader).1 =
        Field.expected threeFields ∧
      (Field.readAll ⟨fun _ => 0, fun _ => 0⟩ threeFields stream.reader).2.stream.mPos =
        stream.mBuf.length ∧
      (Field.readAll ⟨fun _ => 0, fun _ => 0⟩ threeFields stream.reader).2.outOfBounds = false :=
  flat_round_trip ⟨fun _ => 0, fun _ => 0⟩ threeFields (by decide)

end CppProjects
