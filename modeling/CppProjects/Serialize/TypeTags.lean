import CppProjects.Serialize.Decoding

/-!
# Type tags

Whether a read succeeds is decided by one byte, except that a string also
rejects a negative count.  The tag a writer emits is that of the outer kind,
with one exception: lists are written under the tag of vectors.
-/

namespace CppProjects

open LittleEndian DataStream

namespace DataStream

/-! ## What a writer leaves in front -/

/-- `write` never touches what is already in the buffer. -/
def OnlyAppends (write : DataStream → Option DataStream) : Prop :=
  ∀ stream stream', write stream = some stream' → ∃ bytes, stream.Appends bytes stream'

theorem OnlyAppends.bind {first second : DataStream → Option DataStream}
    (hfirst : OnlyAppends first) (hsecond : OnlyAppends second) :
    OnlyAppends (fun stream => do second (← first stream)) := by
  intro stream final hrun
  obtain ⟨middle, hmiddle, hfinal⟩ := Option.bind_eq_some_iff.mp hrun
  obtain ⟨left, hleft⟩ := hfirst stream middle hmiddle
  obtain ⟨right, hright⟩ := hsecond middle final hfinal
  exact ⟨left ++ right, hleft.trans hright⟩

theorem appends_of_reserve {stream stream' : DataStream} {len : ℕ}
    (hreserve : stream.reserve len = some stream') : stream.Appends [] stream' := by
  rw [reserve] at hreserve
  split_ifs at hreserve with hoverflow hgrow
  · obtain ⟨cap, -, hcap⟩ := Option.bind_eq_some_iff.mp hreserve
    cases hcap
    exact ⟨by simp, rfl⟩
  · cases hreserve
    exact ⟨by simp, rfl⟩

/-- The raw `write` appends a prefix of its data, of a non-negative length. -/
theorem appends_of_writeBytes {data : List Byte} {len : ℤ} {stream stream' : DataStream}
    (hwrite : writeBytes data len stream = some stream') :
    0 ≤ len ∧ len ≤ data.length ∧ stream.Appends (data.take len.toNat) stream' := by
  rw [writeBytes] at hwrite
  split_ifs at hwrite with hbad
  obtain ⟨middle, hreserve, hmiddle⟩ := Option.bind_eq_some_iff.mp hwrite
  obtain ⟨hbuf, hpos⟩ := appends_of_reserve hreserve
  cases hmiddle
  refine ⟨by omega, by omega, ?_, hpos⟩
  simp [hbuf]

theorem onlyAppends_writeBytes (data : List Byte) (len : ℤ) :
    OnlyAppends (writeBytes data len) := by
  intro stream stream' hwrite
  exact ⟨_, (appends_of_writeBytes hwrite).2.2⟩

/-- A scalar that was written has its word behind its tag. -/
theorem appends_of_writeFixed {type : DataType} {width : ℕ} {value : Word width}
    {stream stream' : DataStream} (hwrite : writeFixed type value stream = some stream') :
    stream.Appends (encodeFixed type value) stream' := by
  obtain ⟨tagged, htagged, hword⟩ := Option.bind_eq_some_iff.mp hwrite
  obtain ⟨-, -, htag⟩ := appends_of_writeBytes htagged
  obtain ⟨-, -, hdata⟩ := appends_of_writeBytes hword
  rw [List.take_of_length_le (by simp)] at hdata
  exact htag.trans hdata

theorem onlyAppends_writeFixed (type : DataType) {width : ℕ} (value : Word width) :
    OnlyAppends (writeFixed type value) :=
  (onlyAppends_writeBytes _ _).bind (onlyAppends_writeBytes _ _)

theorem onlyAppends_foldlM {α : Type} {writeElem : α → DataStream → Option DataStream}
    (helem : ∀ elem, OnlyAppends (writeElem elem)) (value : List α) :
    OnlyAppends fun stream => value.foldlM (fun stream elem => writeElem elem stream) stream := by
  induction value with
  | nil =>
      intro stream stream' hwrite
      cases hwrite
      exact ⟨[], by simp, rfl⟩
  | cons elem value ih => exact (helem elem).bind ih

/-- A writer that emits a tag and then something else. -/
theorem appends_tagged {type : DataType} {rest : DataStream → Option DataStream}
    (hrest : OnlyAppends rest) {stream stream' : DataStream}
    (hwrite : (do rest (← writeBytes [type.code] 1 stream)) = some stream') :
    ∃ bytes, stream.Appends (type.code :: bytes) stream' := by
  obtain ⟨middle, hmiddle, hfinal⟩ := Option.bind_eq_some_iff.mp hwrite
  have htag := (appends_of_writeBytes hmiddle).2.2
  obtain ⟨bytes, hbytes⟩ := hrest middle stream' hfinal
  exact ⟨bytes, htag.trans hbytes⟩

theorem onlyAppends_writeSequence_rest {α : Type}
    {writeElem : α → DataStream → Option DataStream}
    (helem : ∀ elem, OnlyAppends (writeElem elem)) (value : List α) :
    OnlyAppends (fun stream => do
      value.foldlM (fun stream elem => writeElem elem stream)
        (← writeInt32 (intSize value) stream)) :=
  (onlyAppends_writeFixed _ _).bind (onlyAppends_foldlM helem value)

end DataStream

namespace Ty

/-- The kind whose tag the writer emits. -/
def writtenKind : Ty → DataType
  | list _ => .vector
  | type => type.kind

theorem onlyAppends_write (type : Ty) (value : type.Value) : OnlyAppends (type.write value) := by
  induction type with
  | bool | char | int16 | int32 | int64 | float | double => exact onlyAppends_writeFixed _ _
  | string =>
      exact (onlyAppends_writeBytes _ _).bind
        ((onlyAppends_writeFixed _ _).bind (onlyAppends_writeBytes _ _))
  | vector elem ih | list elem ih | set elem ih =>
      exact (onlyAppends_writeBytes _ _).bind (onlyAppends_writeSequence_rest ih value)
  | map key val ihKey ihVal =>
      exact (onlyAppends_writeBytes _ _).bind (onlyAppends_writeSequence_rest
        (fun entry => (ihKey entry.1).bind (ihVal entry.2)) value)

/-- Whatever is written, the first byte is the tag. -/
theorem appends_writtenKind (type : Ty) (value : type.Value) {stream stream' : DataStream}
    (hwrite : type.write value stream = some stream') :
    ∃ bytes, stream.Appends (type.writtenKind.code :: bytes) stream' := by
  cases type with
  | bool | char | int16 | int32 | int64 | float | double =>
      exact appends_tagged (onlyAppends_writeBytes _ _) hwrite
  | string =>
      exact appends_tagged ((onlyAppends_writeFixed _ _).bind (onlyAppends_writeBytes _ _)) hwrite
  | vector elem | list elem | set elem =>
      exact appends_tagged (onlyAppends_writeSequence_rest elem.onlyAppends_write value) hwrite
  | map key val =>
      have hentry : ∀ entry : key.Value × val.Value,
          OnlyAppends (fun stream => do val.write entry.2 (← key.write entry.1 stream)) :=
        fun entry => (key.onlyAppends_write entry.1).bind (val.onlyAppends_write entry.2)
      exact appends_tagged (onlyAppends_writeSequence_rest hentry value) hwrite

end Ty

/-- A string that was written has a non-negative count behind its tag, and as many of
its bytes behind that. -/
theorem DataStream.appends_of_writeString {value : List Byte} {stream stream' : DataStream}
    (hwrite : writeString value stream = some stream') :
    0 ≤ (intSize value).toInt ∧ (intSize value).toInt ≤ value.length ∧
      stream.Appends (DataType.string.code ::
        (encodeLen value ++ value.take (intSize value).toInt.toNat)) stream' := by
  obtain ⟨tagged, htagged, hrest⟩ := Option.bind_eq_some_iff.mp hwrite
  obtain ⟨counted, hcounted, hbytes⟩ := Option.bind_eq_some_iff.mp hrest
  obtain ⟨counting, hcounting, hword⟩ := Option.bind_eq_some_iff.mp hcounted
  obtain ⟨-, -, htag⟩ := appends_of_writeBytes htagged
  obtain ⟨-, -, htag'⟩ := appends_of_writeBytes hcounting
  obtain ⟨-, -, hlen⟩ := appends_of_writeBytes hword
  obtain ⟨hpos, hle, hdata⟩ := appends_of_writeBytes hbytes
  have hfull : (encodeWord (intSize value)).take (4 : ℤ).toNat = encodeWord (intSize value) := by
    rw [List.take_of_length_le (by simp)]
  refine ⟨hpos, hle, ?_⟩
  have hall := htag.trans ((htag'.trans hlen).trans hdata)
  rw [Nat.cast_ofNat, hfull] at hall
  exact hall

/-! ## What a reader accepts -/

namespace DataStream

variable (env : Env) {β : Type} {type : DataType} {failed : β} {state : ReadState}

/-- A reader whose tag is missing gives up. -/
theorem tagged_of_ne {rest : ReadM β} (htag : (load env 1 state).1 ≠ [type.code]) :
    (do
      if (← load env 1) ≠ [type.code] then return failed
      advance 1
      rest : ReadM β) state = (failed, (load env 1 state).2) := by
  change (if (load env 1 state).1 ≠ [type.code] then pure failed
    else (do advance 1; rest) : ReadM β) (load env 1 state).2 = _
  rw [if_pos htag]
  rfl

/-- A reader whose tag is present goes on behind it. -/
theorem tagged_of_eq (rest : ReadM β) (htag : (load env 1 state).1 = [type.code]) :
    (do
      if (← load env 1) ≠ [type.code] then return failed
      advance 1
      rest : ReadM β) state = (do advance 1; rest : ReadM β) (load env 1 state).2 := by
  change (if (load env 1 state).1 ≠ [type.code] then pure failed
    else (do advance 1; rest) : ReadM β) (load env 1 state).2 = _
  rw [if_neg (not_not_intro htag)]

/-- A string record with a non-negative count is accepted, whatever follows. -/
theorem readString_of_count (old value bytes : List Byte) (state : ReadState)
    (hbuf : state.stream.mBuf = DataType.string.code :: (encodeLen value ++ bytes))
    (hpos : state.stream.mPos = 0) (hlen : 0 ≤ (intSize value).toInt) :
    (readString env old state).1.1 = true := by
  have hload : load env 1 state = ([DataType.string.code], state) :=
    load_inside env [] [DataType.string.code] (encodeLen value ++ bytes) state hbuf hpos
  obtain ⟨counted, hcounted, -, -⟩ := consumes_readLen env value [DataType.string.code] bytes
    { state with stream.mPos := state.stream.mPos + 1 } hbuf (by simp [hpos])
  rw [readString, tagged_of_eq env _ (by rw [hload]), hload]
  change ((if (readLen env { state with stream.mPos := state.stream.mPos + 1 }).1.toInt < 0
    then pure (false, old) else _ : ReadM (Bool × List Byte)) _).1.1 = true
  rw [hcounted, if_neg (not_lt.mpr hlen)]
  rfl

end DataStream

namespace Ty

variable (env : Env)

theorem read_of_tag_ne (type : Ty) (old : type.Value) (state : ReadState)
    (htag : (load env 1 state).1 ≠ [type.kind.code]) :
    (type.read env old state).1.1 = false := by
  cases type <;> exact congrArg (fun outcome : (Bool × _) × ReadState => outcome.1.1) (tagged_of_ne env htag)

/-- Behind its tag no reader but the one for strings can fail: the outcomes of
nested reads are ignored. -/
theorem read_of_tag_eq (type : Ty) (hstring : type ≠ string) (old : type.Value)
    (state : ReadState) (htag : (load env 1 state).1 = [type.kind.code]) :
    (type.read env old state).1.1 = true := by
  cases type with
  | string => exact absurd rfl hstring
  | _ => exact congrArg (fun outcome : (Bool × _) × ReadState => outcome.1.1) (tagged_of_eq env _ htag)

/-- On what a writer produced, a reader succeeds exactly if its tag is the one
that was written. -/
theorem read_write_iff (written type : Ty) (value : written.Value) (old : type.Value)
    (stream : DataStream) (hwrite : written.write value fresh = some stream) :
    (type.read env old stream.reader).1.1 = true ↔ written.writtenKind = type.kind := by
  obtain ⟨bytes, hbuf, hpos⟩ := written.appends_writtenKind value hwrite
  have hload : load env 1 stream.reader = ([written.writtenKind.code], stream.reader) :=
    load_inside env [] [written.writtenKind.code] bytes stream.reader
      (by simpa [fresh, reader] using hbuf) (by simpa [fresh, reader] using hpos)
  by_cases hkind : written.writtenKind = type.kind
  · refine iff_of_true ?_ hkind
    by_cases hstring : type = string
    · subst hstring
      cases written with
      | string =>
          obtain ⟨hlen, -, hbuf, hpos⟩ := appends_of_writeString hwrite
          exact readString_of_count env old value _ stream.reader
            (by simpa [fresh, reader] using hbuf) (by simpa [fresh, reader] using hpos) hlen
      | _ => simp [writtenKind, kind] at hkind
    · exact read_of_tag_eq env type hstring old _ (by rw [hload, hkind])
  · refine iff_of_false ?_ hkind
    rw [Bool.not_eq_true]
    apply read_of_tag_ne
    rw [hload]
    intro hcode
    exact hkind (DataType.code_injective (List.singleton_inj.mp hcode))

end Ty

/-- Reading with the overload of an outer kind succeeds exactly on that kind,
unless a list was written and a list or a vector is read. -/
theorem kind_agreement_iff (env : Env) (written type : Ty) (value : written.Value)
    (old : type.Value) (stream : DataStream) (hwrite : written.write value fresh = some stream) :
    ((type.read env old stream.reader).1.1 = true ↔ written.kind = type.kind) ↔
      ¬(written.kind = .list ∧ (type.kind = .list ∨ type.kind = .vector)) := by
  rw [written.read_write_iff env type value old stream hwrite]
  cases written with
  | list elem =>
      have hkinds : ∀ kind : DataType, ((DataType.vector = kind ↔ DataType.list = kind) ↔
          ¬(kind = .list ∨ kind = .vector)) := by
        intro kind
        cases kind <;> decide
      exact (hkinds type.kind).trans (not_congr (and_iff_right rfl).symm)
  | _ => simp [Ty.writtenKind, Ty.kind]

/-- A `list<int>` holding 1. -/
theorem kind_agreement_iff_list_as_set :
    ((Ty.read ⟨fun _ => 0, fun _ => 0⟩ (.set .int32) [] ⟨⟨[8, 3, 1, 0, 0, 0, 3, 1, 0, 0, 0],
      16, 0⟩, false, 0⟩).1.1 = true ↔ Ty.kind (.list .int32) = Ty.kind (.set .int32)) ↔
      ¬(Ty.kind (.list .int32) = .list ∧
        (Ty.kind (.set .int32) = .list ∨ Ty.kind (.set .int32) = .vector)) :=
  kind_agreement_iff ⟨fun _ => 0, fun _ => 0⟩ (.list .int32) (.set .int32)
    ([1] : List (Word 4)) ([] : List (Word 4)) _ (by decide +kernel)

/-- The overload that wrote a list does not read it back, and the overload for
vectors takes it. -/
theorem list_tag_mismatch :
    ¬∀ (env : Env) (written type : Ty) (value : written.Value) (old : type.Value)
      (stream : DataStream), written.write value fresh = some stream →
        ((type.read env old stream.reader).1.1 = true ↔ written.kind = type.kind) := by
  intro hagree
  have hlist := hagree ⟨fun _ => 0, fun _ => 0⟩ (.list .int32) (.list .int32)
    ([1] : List (Word 4)) ([] : List (Word 4))
    ⟨[8, 3, 1, 0, 0, 0, 3, 1, 0, 0, 0], 16, 0⟩ (by decide +kernel)
  exact absurd (hlist.mpr rfl) (by decide)

end CppProjects
