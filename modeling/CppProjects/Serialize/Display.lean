import Mathlib.Data.List.TakeWhile
import CppProjects.Serialize.Stored

/-!
# Printing a stream

`display` decodes a buffer a second time, with an index of its own: one turn of its
loop for each record.  It has cases for the tags of scalars and strings; at any other
tag a turn does nothing, and the index stays where it is.

The line with the buffer size that comes first is left out.
-/

namespace CppProjects

open LittleEndian CInt DataStream

/-- A value together with its type: what a call writes, reads or prints. -/
abbrev Item := Σ type : Ty, type.Value

/-- The enumerator of a byte. -/
def DataType.ofCode? (byte : Byte) : Option DataType :=
  [bool, char, int16, int32, int64, float, double, string, vector, list, set, map, custom].find?
    fun type => type.code = byte

@[simp]
theorem DataType.ofCode?_code (type : DataType) : ofCode? type.code = some type := by
  cases type <;> rfl

/-- What ends `display` early: its own exception, or that of a `string` constructor
that gets a negative length as a huge `size_t`. -/
inductive Thrown
  | logicError (what : String)
  | lengthError
deriving DecidableEq, Repr

namespace DataStream

/-! ## The loop -/

variable (env : Env) (stream : DataStream)

def bytesAt (index : ℤ) (count : ℕ) : List Byte :=
  (List.range count).map fun offset : ℕ => stream.byteAt env (index + offset)

/-- The word that a cast of `&m_buf[index]` points to. -/
def wordAt (width : ℕ) (index : ℤ) : Word width := decodeWord width (stream.bytesAt env index width)

/-- One turn of the loop at index `i`: what it prints, and the index after it. -/
def displayTurn (i : ℤ) : Except Thrown (List Item × ℤ) :=
  match DataType.ofCode? (stream.byteAt env i) with
  | some .bool => .ok ([⟨.bool, decide (stream.byteAt env (i + 1) ≠ 0)⟩], i + 1 + 1)
  | some .char => .ok ([⟨.char, stream.wordAt env 1 (i + 1)⟩], i + 1 + 1)
  | some .int16 => .ok ([⟨.int16, stream.wordAt env 2 (i + 1)⟩], i + 1 + 2)
  | some .int32 => .ok ([⟨.int32, stream.wordAt env 4 (i + 1)⟩], i + 1 + 4)
  | some .int64 => .ok ([⟨.int64, stream.wordAt env 8 (i + 1)⟩], i + 1 + 8)
  | some .float => .ok ([⟨.float, stream.wordAt env 4 (i + 1)⟩], i + 1 + 4)
  | some .double => .ok ([⟨.double, stream.wordAt env 8 (i + 1)⟩], i + 1 + 8)
  | some .string =>
      if stream.byteAt env (i + 1) = DataType.int32.code then
        let len := (stream.wordAt env 4 (i + 1 + 1)).toInt
        if len < 0 then .error .lengthError
        else .ok ([⟨.string, stream.bytesAt env (i + 1 + 1 + 4) len.toNat⟩], i + 1 + 1 + 4 + len)
      else .error (.logicError "pase string error")
  -- `SET`, `LIST`, `MAP` and `CUSTOM` break at once, and so does the default case
  | _ => .ok ([], i)

/-- The loop, with what has been printed and the index.  `none` is a loop that needs
more than `fuel` turns. -/
def displayLoop : ℕ → List Item × ℤ → Option (Except Thrown (List Item × ℤ))
  | 0, _ => none
  | fuel + 1, (printed, i) =>
      if i < toInt stream.mBuf.length then
        match stream.displayTurn env i with
        | .error thrown => some (.error thrown)
        | .ok (items, next) => displayLoop fuel (printed ++ items, next)
      else some (.ok (printed, i))

def display (fuel : ℕ) : Option (Except Thrown (List Item × ℤ)) :=
  stream.displayLoop env fuel ([], 0)

end DataStream

/-! ## What is written and read -/

/-- A call of one of the `write` overloads. -/
inductive WriteCall
  | typed (type : Ty) (value : type.Value)
  /-- `write(const char *)`. -/
  | cString (value : List Byte)

namespace WriteCall

def perform : WriteCall → DataStream → Option DataStream
  | typed type value => type.write value
  | cString value => writeCString value

/-- The value that a call is to write. -/
def item : WriteCall → Item
  | typed type value => ⟨type, value⟩
  | cString value => ⟨.string, value.takeWhile (· ≠ 0)⟩

def performAll (calls : List WriteCall) (stream : DataStream) : Option DataStream :=
  calls.foldlM (fun stream call => call.perform stream) stream

end WriteCall

namespace Item

def encode (item : Item) : List Byte := item.1.encode item.2

def stored (item : Item) : Item := ⟨item.1, item.1.stored item.2⟩

/-- One read after another, into destinations of the given types and contents. -/
def readAll (env : Env) : List Item → ReadM (List (Bool × Item))
  | [] => return []
  | target :: targets => do
      let (ok, value) ← target.1.read env target.2
      let results ← readAll env targets
      return (ok, ⟨target.1, value⟩) :: results

end Item

namespace WriteCall

theorem perform_eq (call : WriteCall) : call.perform = call.item.1.write call.item.2 := by
  cases call with
  | typed type value => rfl
  | cString value => exact writeCString_eq value

/-- Calls that write scalars and strings leave the records of what they store. -/
theorem leaves_performAll (calls : List WriteCall) (hflat : ∀ call ∈ calls, call.item.1.isFlat) :
    Leaves (performAll calls) (calls.flatMap fun call => call.item.stored.encode) := by
  refine leaves_foldlM calls fun call hmem => ?_
  rw [perform_eq]
  exact call.item.1.leaves_write_flat (hflat call hmem) call.item.2

end WriteCall

/-! ## One record -/

namespace DataStream

variable (env : Env) {stream : DataStream} {before bytes after : List Byte}

theorem bytesAt_append (hbuf : stream.mBuf = before ++ (bytes ++ after)) :
    stream.bytesAt env before.length bytes.length = bytes :=
  congrArg Prod.fst (load_inside env before bytes after
    ⟨{ stream with mPos := before.length }, false, 0⟩ hbuf rfl)

theorem byteAt_head {byte : Byte} (hbuf : stream.mBuf = before ++ byte :: after) :
    stream.byteAt env before.length = byte := by
  have hsingle : stream.mBuf = before ++ ([byte] ++ after) := hbuf
  have hbytes : stream.bytesAt env before.length 1 = [byte] := bytesAt_append env hsingle
  simpa [bytesAt] using hbytes

/-- A scalar record, from its tag on. -/
theorem at_fixed {type : DataType} {width : ℕ} {value : Word width}
    (hbuf : stream.mBuf = before ++ (encodeFixed type value ++ after)) :
    stream.byteAt env before.length = type.code ∧
      stream.wordAt env width (before.length + 1) = value := by
  refine ⟨byteAt_head env hbuf, ?_⟩
  have hpayload : stream.mBuf = (before ++ [type.code]) ++ (encodeWord value ++ after) := by
    rw [hbuf, encodeFixed]
    simp
  have hbytes := bytesAt_append env hpayload
  rw [length_encodeWord, List.length_append, List.length_singleton, Nat.cast_add, Nat.cast_one] at hbytes
  rw [wordAt, hbytes, decodeWord_encodeWord]

/-- The end of a turn behind a scalar record. -/
theorem scalar_end (item : Item) {type : DataType} {width : ℕ} (value : Word width)
    (hencode : item.encode = encodeFixed type value) (i : ℤ) :
    (Except.ok ([item], i + 1 + width) : Except Thrown (List Item × ℤ)) =
      .ok ([item], i + item.encode.length) := by
  rw [hencode, length_encodeFixed, Nat.cast_add, Nat.cast_one, add_assoc]

theorem displayTurn_bool {value : Bool} (hbuf : stream.mBuf = before ++
    (encodeFixed .bool (if value then 1 else 0 : Word 1) ++ after)) :
    stream.displayTurn env before.length = .ok ([⟨.bool, value⟩], before.length + 1 + 1) := by
  have htag : stream.byteAt env before.length = DataType.bool.code := byteAt_head env hbuf
  have hpayload : stream.mBuf =
      (before ++ [DataType.bool.code]) ++ (if value then 1 else 0 : Byte) :: after := by
    rw [hbuf, List.append_assoc]
    cases value <;> rfl
  have hbyte := byteAt_head env hpayload
  rw [List.length_append, List.length_singleton, Nat.cast_add, Nat.cast_one] at hbyte
  rw [displayTurn, htag, DataType.ofCode?_code]
  dsimp only
  rw [hbyte]
  cases value <;> rfl

/-- The tag of a string, the record of its count, and its bytes. -/
theorem displayTurn_string {value : List Byte} (hshort : value.length < 2 ^ 31)
    (hbuf : stream.mBuf = before ++ ((DataType.string.code :: (encodeLen value ++ value)) ++ after)) :
    stream.displayTurn env before.length =
      .ok ([⟨.string, value⟩], before.length + 1 + 1 + 4 + value.length) := by
  have htag : stream.byteAt env before.length = DataType.string.code := byteAt_head env hbuf
  have hcounted : stream.mBuf = (before ++ [DataType.string.code]) ++
      (encodeLen value ++ (value ++ after)) := by
    rw [hbuf]
    simp
  obtain ⟨hint, hcount⟩ := at_fixed env hcounted
  have hpayload : stream.mBuf = (before ++ DataType.string.code :: encodeLen value) ++
      (value ++ after) := by
    rw [hbuf]
    simp
  have hbytes := bytesAt_append env hpayload
  rw [List.length_append, List.length_singleton, Nat.cast_add, Nat.cast_one] at hint hcount
  have hstart : ((before ++ DataType.string.code :: encodeLen value).length : ℤ) =
      before.length + 1 + 1 + 4 := by
    rw [List.length_append, List.length_cons, length_encodeLen]
    push_cast
    ring
  have hlen := toInt_intSize value hshort
  rw [displayTurn, htag, DataType.ofCode?_code]
  dsimp only
  rw [if_pos hint, hcount, hlen, if_neg (by omega), ← hstart, Int.toNat_natCast, hbytes]

/-- A turn prints the value of the record at the index and moves on behind it. -/
theorem displayTurn_record {item : Item} (hflat : item.1.isFlat) (hshort : item.1.Short item.2)
    (hbuf : stream.mBuf = before ++ (item.encode ++ after)) :
    stream.displayTurn env before.length = .ok ([item], before.length + item.encode.length) := by
  obtain ⟨type, value⟩ := item
  cases type with
  | char | int16 | int32 | int64 | float | double =>
      obtain ⟨htag, hword⟩ := at_fixed env hbuf
      rw [displayTurn, htag, DataType.ofCode?_code]
      dsimp only
      rw [hword]
      exact scalar_end ⟨_, value⟩ value rfl _
  | bool =>
      rw [displayTurn_bool env hbuf]
      exact scalar_end ⟨.bool, value⟩ _ rfl _
  | string =>
      rw [displayTurn_string env hshort hbuf]
      have hlength : (Item.encode ⟨.string, value⟩).length = 6 + (value : List Byte).length :=
        Ty.length_encode_string value
      have hend : (before.length : ℤ) + 1 + 1 + 4 + (value : List Byte).length =
          before.length + (6 + (value : List Byte).length : ℕ) := by
        push_cast
        ring
      rw [hlength, ← hend]
  | vector | list | set | map => simp [Ty.isFlat] at hflat

/-- At the tag of a container a turn does nothing. -/
theorem displayTurn_container {type : Ty} (hcontainer : ¬type.isFlat)
    (hbuf : stream.mBuf = before ++ type.writtenKind.code :: after) :
    stream.displayTurn env before.length = .ok ([], before.length) := by
  rw [displayTurn, byteAt_head env hbuf, DataType.ofCode?_code]
  cases type with
  | vector | list | set | map => rfl
  | bool | char | int16 | int32 | int64 | float | double | string =>
      exact absurd rfl hcontainer

/-! ## The whole buffer -/

/-- A record has at least its tag. -/
theorem length_encode_pos {item : Item} (hflat : item.1.isFlat) : 0 < item.encode.length := by
  obtain ⟨type, value⟩ := item
  cases type with
  | bool | char | int16 | int32 | int64 | float | double | string => exact Nat.succ_pos _
  | vector | list | set | map => simp [Ty.isFlat] at hflat

/-- Inside the buffer the loop takes a turn. -/
theorem displayLoop_succ (hsize : stream.mBuf.length ≤ intMax) (fuel : ℕ) (printed : List Item)
    (hinside : before.length < stream.mBuf.length) :
    stream.displayLoop env (fuel + 1) (printed, before.length) =
      match stream.displayTurn env before.length with
      | .error thrown => some (.error thrown)
      | .ok (items, next) => stream.displayLoop env fuel (printed ++ items, next) := by
  have hint : toInt stream.mBuf.length = stream.mBuf.length := by
    rw [intMax] at hsize
    apply toInt_eq_self
    constructor <;> omega
  rw [displayLoop, if_pos (by rw [hint]; exact_mod_cast hinside)]

/-- The loop prints the records from the index on, one a turn. -/
theorem displayLoop_records (hsize : stream.mBuf.length ≤ intMax) (fuel : ℕ) (items : List Item)
    (hflat : ∀ item ∈ items, item.1.isFlat) (hshort : ∀ item ∈ items, item.1.Short item.2)
    (before after : List Byte) (printed : List Item)
    (hbuf : stream.mBuf = before ++ (items.flatMap Item.encode ++ after)) :
    stream.displayLoop env (items.length + fuel) (printed, before.length) =
      stream.displayLoop env fuel
        (printed ++ items, (before ++ items.flatMap Item.encode).length) := by
  induction items generalizing before printed with
  | nil => simp
  | cons item items ih =>
      have hhead : stream.mBuf = before ++ (item.encode ++ (items.flatMap Item.encode ++ after)) := by
        rw [hbuf, List.flatMap_cons, List.append_assoc]
      have htail : stream.mBuf = (before ++ item.encode) ++ (items.flatMap Item.encode ++ after) := by
        rw [hhead, List.append_assoc]
      have hpos := length_encode_pos (hflat item List.mem_cons_self)
      have hinside : before.length < stream.mBuf.length := by
        rw [htail, List.length_append, List.length_append]
        omega
      have hrest := ih (fun other hother => hflat other (List.mem_cons_of_mem item hother))
        (fun other hother => hshort other (List.mem_cons_of_mem item hother))
        (before ++ item.encode) (printed ++ [item]) htail
      rw [List.length_append, Nat.cast_add] at hrest
      rw [List.length_cons, Nat.add_right_comm, displayLoop_succ env hsize _ printed hinside,
        displayTurn_record env (hflat item List.mem_cons_self) (hshort item List.mem_cons_self) hhead]
      dsimp only
      rw [hrest, List.append_assoc, List.singleton_append, List.flatMap_cons, List.append_assoc]

/-- More turns change nothing. -/
theorem displayLoop_mono (fuel more : ℕ) (printing : List Item × ℤ)
    {outcome : Except Thrown (List Item × ℤ)}
    (hdone : stream.displayLoop env fuel printing = some outcome) :
    stream.displayLoop env (fuel + more) printing = some outcome := by
  induction fuel generalizing printing with
  | zero => exact absurd hdone (by simp [displayLoop])
  | succ fuel ih =>
      obtain ⟨printed, i⟩ := printing
      rw [Nat.add_right_comm]
      rw [displayLoop] at hdone ⊢
      split_ifs at hdone ⊢
      · cases hturn : stream.displayTurn env i with
        | error thrown =>
            rw [hturn] at hdone
            exact hdone
        | ok turn =>
            rw [hturn] at hdone
            exact ih _ hdone
      · exact hdone

/-- Where a turn changes nothing, the loop turns for ever. -/
theorem displayLoop_stuck (hturn : stream.displayTurn env before.length =
    .ok ([], before.length)) (hsize : stream.mBuf.length ≤ intMax)
    (hinside : before.length < stream.mBuf.length) (printed : List Item) (fuel : ℕ) :
    stream.displayLoop env fuel (printed, before.length) = none := by
  induction fuel with
  | zero => rfl
  | succ fuel ih =>
      rw [displayLoop_succ env hsize fuel printed hinside, hturn]
      dsimp only
      rw [List.append_nil, ih]

end DataStream

/-! ## The reads that match -/

/-- One read of the right type for each record, and every value is returned. -/
theorem Item.consumes_readAll (env : Env) (items targets : List Item)
    (htypes : targets.map Sigma.fst = items.map Sigma.fst)
    (hflat : ∀ item ∈ items, item.1.isFlat) (hshort : ∀ item ∈ items, item.1.Short item.2) :
    Consumes (readAll env targets) (items.flatMap encode) 0 (items.map fun item => (true, item)) := by
  induction items generalizing targets with
  | nil =>
      obtain rfl := List.map_eq_nil_iff.mp htypes
      exact Consumes.pure []
  | cons item items ih =>
      obtain ⟨target, rest, rfl, htype, hrest⟩ := List.map_eq_cons_iff.mp htypes
      obtain ⟨type, value⟩ := item
      obtain ⟨_, old⟩ := target
      cases htype
      have hhead := type.consumes_short env (hflat _ List.mem_cons_self) old value
        (hshort _ List.mem_cons_self)
      have htail := ih rest hrest (fun other hother => hflat other (List.mem_cons_of_mem _ hother))
        fun other hother => hshort other (List.mem_cons_of_mem _ hother)
      have hboth : Consumes (readAll env rest >>= fun results =>
          Pure.pure ((true, ⟨type, value⟩) :: results)) _ _ _ := htail.bind (Consumes.pure _)
      rw [List.append_nil] at hboth
      exact hhead.bind hboth

/-! ## What calls leave in the buffer -/

namespace DataStream

/-- A successful `write` keeps the size of the buffer an `int`. -/
def KeepsInt (write : DataStream → Option DataStream) : Prop :=
  ∀ stream stream', write stream = some stream' → stream.mBuf.length ≤ intMax →
    stream'.mBuf.length ≤ intMax

theorem KeepsInt.bind {first second : DataStream → Option DataStream}
    (hfirst : KeepsInt first) (hsecond : KeepsInt second) :
    KeepsInt (fun stream => do second (← first stream)) := by
  intro stream final hrun hsize
  obtain ⟨middle, hmiddle, hfinal⟩ := Option.bind_eq_some_iff.mp hrun
  exact hsecond middle final hfinal (hfirst stream middle hmiddle hsize)

/-- `reserve` adds the sizes as `int`s. -/
theorem keepsInt_writeBytes (data : List Byte) (len : ℤ) : KeepsInt (writeBytes data len) := by
  intro stream stream' hwrite _
  obtain ⟨hpos, hle, hbuf, -⟩ := appends_of_writeBytes hwrite
  rw [writeBytes, if_neg (by omega)] at hwrite
  obtain ⟨reserved, hreserve, -⟩ := Option.bind_eq_some_iff.mp hwrite
  rw [reserve] at hreserve
  split_ifs at hreserve with hoverflow
  all_goals
    rw [hbuf, List.length_append, List.length_take]
    omega

theorem keepsInt_writeFixed (type : DataType) {width : ℕ} (value : Word width) :
    KeepsInt (writeFixed type value) :=
  (keepsInt_writeBytes _ _).bind (keepsInt_writeBytes _ _)

theorem keepsInt_foldlM {α : Type} {writeElem : α → DataStream → Option DataStream}
    (value : List α) (helem : ∀ elem ∈ value, KeepsInt (writeElem elem)) :
    KeepsInt fun stream => value.foldlM (fun stream elem => writeElem elem stream) stream := by
  induction value with
  | nil =>
      intro stream stream' hwrite hsize
      cases hwrite
      exact hsize
  | cons elem value ih =>
      have hrest := ih fun other hother => helem other (List.mem_cons_of_mem elem hother)
      exact (helem elem List.mem_cons_self).bind hrest

theorem keepsInt_writeSequence {α : Type} (type : DataType)
    {writeElem : α → DataStream → Option DataStream} (value : List α)
    (helem : ∀ elem, KeepsInt (writeElem elem)) : KeepsInt (writeSequence type writeElem value) :=
  (keepsInt_writeBytes _ _).bind
    (KeepsInt.bind (keepsInt_writeFixed _ _) (keepsInt_foldlM value fun elem _ => helem elem))

end DataStream

theorem Ty.keepsInt_write (type : Ty) (value : type.Value) : KeepsInt (type.write value) := by
  induction type with
  | bool | char | int16 | int32 | int64 | float | double => exact keepsInt_writeFixed _ _
  | string =>
      exact (keepsInt_writeBytes _ _).bind
        ((keepsInt_writeFixed _ _).bind (keepsInt_writeBytes _ _))
  | vector elem ih | list elem ih | set elem ih => exact keepsInt_writeSequence _ value ih
  | map key val ihKey ihVal =>
      exact keepsInt_writeSequence _ value fun entry => (ihKey entry.1).bind (ihVal entry.2)

namespace WriteCall

theorem keepsInt_performAll (calls : List WriteCall) : KeepsInt (performAll calls) := by
  apply keepsInt_foldlM calls
  intro call _
  rw [perform_eq]
  exact call.item.1.keepsInt_write call.item.2

theorem onlyAppends_performAll (calls : List WriteCall) : OnlyAppends (performAll calls) := by
  refine onlyAppends_foldlM (fun call => ?_) calls
  rw [perform_eq]
  exact call.item.1.onlyAppends_write call.item.2

variable {calls : List WriteCall} {stream : DataStream}

/-- The values that calls store. -/
def storedAll (calls : List WriteCall) : List Item := calls.map fun call => call.item.stored

theorem storedAll_flat (hflat : ∀ call ∈ calls, call.item.1.isFlat) :
    ∀ item ∈ storedAll calls, item.1.isFlat := by
  intro item hmem
  obtain ⟨call, hcall, rfl⟩ := List.mem_map.mp hmem
  exact hflat call hcall

theorem storedAll_short (calls : List WriteCall) : ∀ item ∈ storedAll calls, item.1.Short item.2 := by
  intro item hmem
  obtain ⟨call, -, rfl⟩ := List.mem_map.mp hmem
  exact call.item.1.short_stored call.item.2

/-- After calls for scalars and strings the buffer consists of their records. -/
theorem mBuf_of_performAll (hflat : ∀ call ∈ calls, call.item.1.isFlat)
    (hwrite : performAll calls fresh = some stream) :
    stream.mBuf = (storedAll calls).flatMap Item.encode ∧ stream.mPos = 0 := by
  have hleaves := leaves_performAll calls hflat fresh stream hwrite
  rw [← List.flatMap_map] at hleaves
  exact hleaves

/-- Scalars and strings are displayed to the end. -/
theorem display_of_flat (env : Env) (hflat : ∀ call ∈ calls, call.item.1.isFlat)
    (hwrite : performAll calls fresh = some stream) :
    stream.display env ((storedAll calls).length + 1) =
      some (.ok (storedAll calls, stream.mBuf.length)) := by
  obtain ⟨hbuf, -⟩ := mBuf_of_performAll hflat hwrite
  have hsize := keepsInt_performAll calls fresh stream hwrite (Nat.zero_le _)
  have hloop := displayLoop_records env hsize 1 (storedAll calls) (storedAll_flat hflat)
    (storedAll_short calls) [] [] [] (by rw [hbuf, List.append_nil, List.nil_append])
  rw [List.nil_append, List.nil_append, ← hbuf] at hloop
  have hend : ¬(stream.mBuf.length : ℤ) < toInt stream.mBuf.length := by
    rw [intMax] at hsize
    rw [toInt_eq_self (by constructor <;> omega)]
    exact lt_irrefl _
  exact hloop.trans (if_neg hend)

/-- A container is never passed. -/
theorem display_of_container (env : Env) (before after : List WriteCall) {call : WriteCall}
    (hflat : ∀ call ∈ before, call.item.1.isFlat) (hcall : ¬call.item.1.isFlat)
    (hwrite : performAll (before ++ call :: after) fresh = some stream) (fuel : ℕ) :
    stream.display env fuel = none := by
  have hsize := keepsInt_performAll _ fresh stream hwrite (Nat.zero_le _)
  rw [performAll, List.foldlM_append] at hwrite
  obtain ⟨reached, hreached, hcalls⟩ := Option.bind_eq_some_iff.mp hwrite
  rw [List.foldlM_cons] at hcalls
  obtain ⟨tagged, htagged, hrest⟩ := Option.bind_eq_some_iff.mp hcalls
  obtain ⟨hbefore, -⟩ := mBuf_of_performAll hflat hreached
  rw [perform_eq] at htagged
  obtain ⟨bytes, hbytes, -⟩ := call.item.1.appends_writtenKind call.item.2 htagged
  obtain ⟨rest, hafter, -⟩ := onlyAppends_performAll after tagged stream hrest
  have hbuf : stream.mBuf = (storedAll before).flatMap Item.encode ++
      call.item.1.writtenKind.code :: (bytes ++ rest) := by
    rw [hafter, hbytes, hbefore, List.append_assoc, List.cons_append]
  have hinside : ((storedAll before).flatMap Item.encode).length < stream.mBuf.length := by
    rw [hbuf, List.length_append, List.length_cons]
    omega
  have hstuck := displayLoop_stuck env (displayTurn_container env hcall hbuf) hsize hinside
    (storedAll before) fuel
  have hloop := displayLoop_records env hsize fuel (storedAll before) (storedAll_flat hflat)
    (storedAll_short before) [] _ [] (by rw [hbuf, List.nil_append])
  rw [List.nil_append, List.nil_append, hstuck] at hloop
  by_contra hends
  obtain ⟨outcome, houtcome⟩ := Option.ne_none_iff_exists'.mp hends
  have hmore := displayLoop_mono env fuel (storedAll before).length ([], 0) houtcome
  rw [Nat.add_comm] at hmore
  exact absurd (hloop.symm.trans hmore) (Option.some_ne_none _).symm

end WriteCall

/-- `display` comes to the end of a buffer exactly if no container was written to it. -/
theorem display_ends_iff (env : Env) (calls : List WriteCall) (stream : DataStream)
    (hwrite : WriteCall.performAll calls fresh = some stream) :
    (∃ fuel items, stream.display env fuel = some (.ok (items, (stream.mBuf.length : ℤ)))) ↔
      ∀ call ∈ calls, call.item.1.isFlat := by
  constructor
  · rintro ⟨fuel, items, hends⟩
    by_contra hcontainer
    -- the calls before the first that writes a container
    let flat : WriteCall → Bool := fun call => call.item.1.isFlat
    have hsplit : calls.takeWhile flat ++ calls.dropWhile flat = calls :=
      List.takeWhile_append_dropWhile
    cases hdrop : calls.dropWhile flat with
    | nil =>
        rw [List.dropWhile_eq_nil_iff] at hdrop
        exact hcontainer hdrop
    | cons call after =>
        have hcall : ¬flat call := by
          have hhead := List.head_dropWhile_not flat (l := calls) (by simp [hdrop])
          simpa [hdrop] using hhead
        rw [hdrop] at hsplit
        rw [← hsplit] at hwrite
        have hnone := WriteCall.display_of_container env (calls.takeWhile flat) after
          (fun _ hmem => List.mem_takeWhile_imp (p := flat) hmem) hcall hwrite fuel
        rw [hnone] at hends
        exact absurd hends (Option.some_ne_none _).symm
  · intro hflat
    exact ⟨_, _, WriteCall.display_of_flat env hflat hwrite⟩

/-- A buffer of a number and a vector. -/
theorem display_ends_iff_vectorBehind :
    (∃ fuel items, display ⟨fun _ => 0, fun _ => 0⟩
        ⟨[3, 5, 0, 0, 0, 8, 3, 0, 0, 0, 0], 16, 0⟩ fuel = some (.ok (items, (11 : ℤ)))) ↔
      ∀ call ∈ [WriteCall.typed .int32 (5 : Word 4), .typed (.vector .int32) ([] : List (Word 4))],
        call.item.1.isFlat :=
  display_ends_iff _ _ _ (by decide +kernel)

/-- `display` on a vector of one number. -/
theorem display_vector_turns :
    (Ty.vector .int32).write ([1] : List (Word 4)) fresh =
      some ⟨[8, 3, 1, 0, 0, 0, 3, 1, 0, 0, 0], 16, 0⟩ ∧
    ∀ fuel, display ⟨fun _ => 0, fun _ => 0⟩ ⟨[8, 3, 1, 0, 0, 0, 3, 1, 0, 0, 0], 16, 0⟩ fuel = none := by
  refine ⟨by decide +kernel, fun fuel => ?_⟩
  change displayLoop _ _ fuel ([], (([] : List Byte).length : ℤ)) = none
  exact displayLoop_stuck _ rfl (by decide) (by decide) [] fuel

/-- On scalars and strings `display` prints what the reads of their types return, and
its index ends at the buffer size. -/
theorem display_eq_reads (env : Env) (calls : List WriteCall)
    (hflat : ∀ call ∈ calls, call.item.1.isFlat) (targets : List Item)
    (htypes : targets.map Sigma.fst = calls.map fun call => call.item.1) (stream : DataStream)
    (hwrite : WriteCall.performAll calls fresh = some stream) :
    ∃ fuel items, stream.display env fuel = some (.ok (items, (stream.mBuf.length : ℤ))) ∧
      (Item.readAll env targets stream.reader).1 = items.map fun item => (true, item) := by
  obtain ⟨hbuf, hpos⟩ := WriteCall.mBuf_of_performAll hflat hwrite
  have hmatch : targets.map Sigma.fst = (WriteCall.storedAll calls).map Sigma.fst := by
    rw [htypes, WriteCall.storedAll, List.map_map]
    rfl
  obtain ⟨state, hrun, -, -⟩ := Item.consumes_readAll env (WriteCall.storedAll calls) targets hmatch
    (WriteCall.storedAll_flat hflat) (WriteCall.storedAll_short calls) [] [] stream.reader
    (by simpa [reader] using hbuf) (by simpa [reader] using hpos)
  refine ⟨_, WriteCall.storedAll calls, WriteCall.display_of_flat env hflat hwrite, ?_⟩
  rw [hrun]

/-- A number and a C string. -/
theorem display_eq_reads_numberAndText :
    ∃ fuel items, display ⟨fun _ => 0, fun _ => 0⟩
        ⟨[3, 5, 0, 0, 0, 7, 3, 2, 0, 0, 0, 0x68, 0x69], 16, 0⟩ fuel = some (.ok (items, (13 : ℤ))) ∧
      (Item.readAll ⟨fun _ => 0, fun _ => 0⟩ [⟨.int32, (0 : Word 4)⟩, ⟨.string, ([] : List Byte)⟩]
        (reader ⟨[3, 5, 0, 0, 0, 7, 3, 2, 0, 0, 0, 0x68, 0x69], 16, 0⟩)).1 =
          items.map fun item => (true, item) :=
  display_eq_reads _ [.typed .int32 (5 : Word 4), .cString [0x68, 0x69, 0]] (by decide) _ rfl _
    (by decide +kernel)

end CppProjects
