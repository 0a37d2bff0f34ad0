import CppProjects.Serialize.Encoding

/-!
# Reading what was written

`Consumes` is the triple used for readers: standing before given bytes, the
reader returns a given result, never leaves the buffer, and stops a given
number of bytes beyond the bytes it was given.  Scalars and strings stop
exactly at the end; containers do not, which is why the excess is part of the
triple.
-/

namespace CppProjects

open LittleEndian

namespace DataStream

variable (env : Env)

/-- Standing before `bytes`, the reader returns `result` with its cursor
`excess` bytes after their end. -/
def Consumes {α : Type} (reader : ReadM α) (bytes : List Byte) (excess : ℕ) (result : α) : Prop :=
  ∀ (before after : List Byte) (state : ReadState),
    state.stream.mBuf = before ++ (bytes ++ after) → state.stream.mPos = before.length →
    ∃ state', reader state = (result, state') ∧
      state'.stream =
        { state.stream with mPos := before.length + bytes.length + excess } ∧
      state'.outOfBounds = state.outOfBounds

variable {α β : Type}

theorem Consumes.pure (result : α) : Consumes (Pure.pure result) [] 0 result := by
  intro before after state _ hpos
  refine ⟨state, rfl, ?_, rfl⟩
  simp [← hpos]

theorem Consumes.bind {reader : ReadM α} {next : α → ReadM β} {left right : List Byte}
    {excess : ℕ} {middle : α} {result : β} (hreader : Consumes reader left 0 middle)
    (hnext : Consumes (next middle) right excess result) :
    Consumes (reader >>= next) (left ++ right) excess result := by
  intro before after state hbuf hpos
  obtain ⟨state₁, hrun, hstream, hflag⟩ :=
    hreader before (right ++ after) state (by rw [hbuf, List.append_assoc]) hpos
  obtain ⟨state₂, hrun', hstream', hflag'⟩ :=
    hnext (before ++ left) after state₁ (by simp [hstream, hbuf]) (by simp [hstream])
  refine ⟨state₂, ?_, ?_, hflag'.trans hflag⟩
  · change next (reader state).1 (reader state).2 = _
    rw [hrun]
    exact hrun'
  · rw [hstream', hstream]
    simp only [List.length_append, Nat.cast_add]
    congr 1
    ring

/-- An excess may be split off by a final `advance`. -/
theorem Consumes.map_advance {reader : ReadM α} {bytes : List Byte} {excess : ℕ} {middle : α}
    (hreader : Consumes reader bytes excess middle) (len : ℕ) (finish : α → β) :
    Consumes (do
      let value ← reader
      advance len
      return finish value) bytes (excess + len) (finish middle) := by
  intro before after state hbuf hpos
  obtain ⟨state₁, hrun, hstream, hflag⟩ := hreader before after state hbuf hpos
  refine ⟨{ state₁ with stream.mPos := state₁.stream.mPos + len }, ?_, ?_, hflag⟩
  · change (finish (reader state).1, { (reader state).2 with
      stream.mPos := (reader state).2.stream.mPos + len }) = _
    rw [hrun]
  · simp only [hstream, Nat.cast_add]
    congr 1
    ring

/-- A byte of the buffer, addressed from a split of it. -/
theorem byteAt_append (stream : DataStream) (before bytes after : List Byte)
    (hbuf : stream.mBuf = before ++ (bytes ++ after)) (offset : ℕ) (hoffset : offset < bytes.length) :
    stream.byteAt env (before.length + offset) = bytes[offset] := by
  have hinside : (0 : ℤ) ≤ before.length + offset ∧
      ((before.length : ℤ) + offset) < stream.mBuf.length := by
    rw [hbuf]
    simp only [List.length_append]
    omega
  have hindex : ((before.length : ℤ) + offset).toNat = before.length + offset := by omega
  rw [byteAt, if_pos hinside, hindex, hbuf, List.getD_eq_getElem?_getD,
    List.getElem?_append_right (by omega), Nat.add_sub_cancel_left,
    List.getElem?_append_left hoffset, List.getElem?_eq_getElem hoffset, Option.getD_some]

/-- Loading the bytes at the cursor changes nothing. -/
theorem load_inside (before bytes after : List Byte) (state : ReadState)
    (hbuf : state.stream.mBuf = before ++ (bytes ++ after))
    (hpos : state.stream.mPos = before.length) :
    load env bytes.length state = (bytes, state) := by
  have hbytes : (List.range bytes.length).map
      (fun offset : ℕ => state.stream.byteAt env (state.stream.mPos + offset)) = bytes := by
    apply List.ext_getElem
    · simp
    · intro offset _ hoffset
      simp only [List.getElem_map, List.getElem_range, hpos]
      exact byteAt_append env state.stream before bytes after hbuf offset hoffset
  have hinside : state.stream.Inside bytes.length := by
    right
    rw [hbuf, hpos]
    simp only [List.length_append]
    omega
  rw [load, hbytes]
  simp [hinside]

/-- A reader that checks its tag and then reads the payload. -/
theorem consumes_tagged (type : DataType) {rest : ReadM β} {bytes : List Byte} {excess : ℕ}
    {result : β} (failed : β) (hrest : Consumes rest bytes excess result) :
    Consumes (do
      if (← load env 1) ≠ [type.code] then return failed
      advance 1
      rest) (type.code :: bytes) excess result := by
  intro before after state hbuf hpos
  have htag : load env 1 state = ([type.code], state) :=
    load_inside env before [type.code] (bytes ++ after) state (by simpa using hbuf) hpos
  obtain ⟨state', hrun, hstream, hflag⟩ := hrest (before ++ [type.code]) after
    { state with stream.mPos := state.stream.mPos + 1 } (by simpa using hbuf) (by simp [hpos])
  refine ⟨state', ?_, ?_, hflag⟩
  · change (if (load env 1 state).1 ≠ [type.code] then Pure.pure failed
      else (do advance 1; rest) : ReadM β) (load env 1 state).2 = _
    rw [htag, if_neg (by simp)]
    exact hrun
  · rw [hstream]
    simp only [List.length_append, List.length_cons, List.length_nil, Nat.cast_add]
    congr 1
    push_cast
    ring

/-- A payload of known size is loaded and stepped over. -/
theorem consumes_payload (bytes : List Byte) (len : ℕ) (step : ℤ) (hlen : len = bytes.length)
    (hstep : step = bytes.length) (finish : List Byte → β) :
    Consumes (do
      let loaded ← load env len
      advance step
      return finish loaded) bytes 0 (finish bytes) := by
  subst hlen hstep
  intro before after state hbuf hpos
  refine ⟨{ state with stream.mPos := state.stream.mPos + bytes.length }, ?_, ?_, rfl⟩
  · change (finish (load env bytes.length state).1, { (load env bytes.length state).2 with
      stream.mPos := (load env bytes.length state).2.stream.mPos + bytes.length }) = _
    rw [load_inside env before bytes after state hbuf hpos]
  · simp [hpos]

/-- An uninitialised local takes no bytes, whatever it holds. -/
theorem consumes_declareWord {width : ℕ} {next : Word width → ReadM β} {bytes : List Byte}
    {excess : ℕ} {result : β} (hnext : ∀ word, Consumes (next word) bytes excess result) :
    Consumes (declareWord env width >>= next) bytes excess result := by
  intro before after state hbuf hpos
  exact hnext _ before after { state with declared := state.declared + 1 } hbuf hpos

theorem consumes_readFixed (type : DataType) {width : ℕ} (old value : Word width) :
    Consumes (readFixed env type old) (encodeFixed type value) 0 (true, value) := by
  have hpayload := consumes_payload env (encodeWord value) width width (by simp) (by simp)
    fun bytes => (true, decodeWord width bytes)
  rw [decodeWord_encodeWord] at hpayload
  exact consumes_tagged env type (false, old) hpayload

theorem consumes_readBool (old value : Bool) :
    Consumes (readBool env old)
      (encodeFixed .bool (if value then 1 else 0 : Word 1)) 0 (true, value) := by
  have hpayload := consumes_payload env (encodeWord (if value then 1 else 0 : Word 1)) 1 1
    (by simp) (by simp) fun bytes => (true, decide (decodeWord 1 bytes ≠ 0))
  rw [decodeWord_encodeWord] at hpayload
  have hvalue : decide ((if value then 1 else 0 : Word 1) ≠ 0) = value := by
    cases value <;> rfl
  rw [hvalue] at hpayload
  exact consumes_tagged env .bool (false, old) hpayload

theorem consumes_readLen {α : Type} (value : List α) :
    Consumes (readLen env) (encodeLen value) 0 (intSize value) := by
  apply consumes_declareWord
  intro old
  have hlen : Consumes (readFixed env .int32 old >>= fun pair => Pure.pure pair.2) _ _ _ :=
    (consumes_readFixed env .int32 old (intSize value)).bind (Consumes.pure (intSize value))
  rwa [List.append_nil] at hlen

theorem consumes_readString (old value : List Byte) (hbound : value.length < 2 ^ 31) :
    Consumes (readString env old)
      (DataType.string.code :: (encodeLen value ++ value)) 0 (true, value) := by
  have hlen := toInt_intSize value hbound
  apply consumes_tagged env .string (false, old)
  apply (consumes_readLen env value).bind
  rw [if_neg (by omega)]
  exact consumes_payload env value _ _ (by omega) hlen fun bytes => (true, bytes)

end DataStream

end CppProjects
