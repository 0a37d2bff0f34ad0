import CppProjects.Serialize.FlatRoundTrip

/-!
# Nested vectors and sets

The reads of containers move the cursor on by the element count after the
elements have already been consumed.  The distance by which a value overshoots
its own encoding is `excess`; it vanishes exactly for scalars, strings and
empty containers, and reads compose exactly as far as it vanishes.
-/

namespace CppProjects

open LittleEndian DataStream

namespace Ty

/-- Types built from scalars and strings by `vector` and `set`. -/
def isSequence : Ty → Bool
  | vector elem => elem.isSequence
  | set elem => elem.isSequence
  | list _ => false
  | map _ _ => false
  | _ => true

/-- What `std::set` guarantees of its elements, at every level. -/
def Valid : (type : Ty) → type.Value → Prop
  | vector elem => fun value : List elem.Value => ∀ item ∈ value, elem.Valid item
  | list elem => fun value : List elem.Value => ∀ item ∈ value, elem.Valid item
  | set elem => fun value : List elem.Value =>
      value.Pairwise (fun left right => elem.lt left right = true) ∧
        ∀ item ∈ value, elem.Valid item
  | map key val => fun value : List (key.Value × val.Value) =>
      value.Pairwise (fun left right => key.lt left.1 right.1 = true) ∧
        ∀ item ∈ value, key.Valid item.1 ∧ val.Valid item.2
  | _ => fun _ => True

/-- The number of bytes by which reading the value overshoots its encoding. -/
def excess : (type : Ty) → type.Value → ℕ
  | vector elem => fun value : List elem.Value =>
      (value.getLast?.map elem.excess).getD 0 + value.length
  | set elem => fun value : List elem.Value =>
      (value.getLast?.map elem.excess).getD 0 + value.length
  | _ => fun _ => 0

/-- A scalar, a string, or an empty container. -/
def Settled : (type : Ty) → type.Value → Prop
  | vector elem => fun value : List elem.Value => value = []
  | list elem => fun value : List elem.Value => value = []
  | set elem => fun value : List elem.Value => value = []
  | map key val => fun value : List (key.Value × val.Value) => value = []
  | _ => fun _ => True

/-- In every container only the last element may itself hold elements. -/
def TailNested : (type : Ty) → type.Value → Prop
  | vector elem => fun value : List elem.Value =>
      (∀ item ∈ value.dropLast, elem.Settled item) ∧ ∀ item ∈ value.getLast?, elem.TailNested item
  | set elem => fun value : List elem.Value =>
      (∀ item ∈ value.dropLast, elem.Settled item) ∧ ∀ item ∈ value.getLast?, elem.TailNested item
  | _ => fun _ => True

theorem excess_eq_zero_iff (type : Ty) (hsequence : type.isSequence) (value : type.Value) :
    type.excess value = 0 ↔ type.Settled value := by
  cases type with
  | vector elem | set elem =>
      constructor
      · intro hzero
        exact List.length_eq_zero_iff.mp (Nat.eq_zero_of_add_eq_zero hzero).2
      · intro hnil
        obtain rfl : value = [] := hnil
        rfl
  | list elem | map key val => simp [isSequence] at hsequence
  | _ => exact iff_of_true rfl trivial

theorem Settled.tailNested {type : Ty} {value : type.Value} (hsettled : type.Settled value) :
    type.TailNested value := by
  cases type with
  | vector elem | set elem =>
      obtain rfl : value = [] := hsettled
      exact ⟨by simp, by simp⟩
  | _ => trivial

/-! ## The order on keys -/

theorem lexLt_asymm {α : Type} {lt : α → α → Bool}
    (hasymm : ∀ left right, lt left right = true → lt right left = false) (left right : List α)
    (hlt : lexLt lt left right = true) : lexLt lt right left = false := by
  induction left generalizing right with
  | nil =>
      cases right with
      | nil => rfl
      | cons head tail => rfl
  | cons head tail ih =>
      cases right with
      | nil => simp [lexLt] at hlt
      | cons head' tail' =>
          simp only [lexLt, Bool.or_eq_true, Bool.and_eq_true, Bool.not_eq_true'] at hlt
          simp only [lexLt, Bool.or_eq_false_iff, Bool.and_eq_false_iff, Bool.not_eq_false']
          rcases hlt with hhead | ⟨hhead, htail⟩
          · exact ⟨hasymm _ _ hhead, Or.inl hhead⟩
          · exact ⟨hhead, Or.inr (ih tail' htail)⟩

theorem slt_asymm {width : ℕ} (left right : BitVec width) (hlt : left.slt right = true) :
    right.slt left = false := by
  simp only [BitVec.slt, decide_eq_true_eq, decide_eq_false_iff_not] at hlt ⊢
  omega

theorem floatLt_asymm {width infinity : ℕ} (left right : Word width)
    (hlt : floatLt infinity left right = true) : floatLt infinity right left = false := by
  simp only [floatLt, Bool.and_eq_true, decide_eq_true_eq] at hlt
  simp only [floatLt, Bool.and_eq_false_iff, decide_eq_false_iff_not]
  exact Or.inr (not_lt.mpr hlt.2.le)

/-- No two keys precede each other. -/
theorem lt_asymm (type : Ty) (left right : type.Value) (hlt : type.lt left right = true) :
    type.lt right left = false := by
  induction type with
  | bool =>
      revert left right
      change ∀ left right : Bool, (!left && right) = true → (!right && left) = false
      decide
  | char | int16 | int32 | int64 => exact slt_asymm left right hlt
  | float | double => exact floatLt_asymm left right hlt
  | string =>
      refine lexLt_asymm ?_ left right hlt
      intro left right hlt
      simp only [BitVec.ult, decide_eq_true_eq, decide_eq_false_iff_not] at hlt ⊢
      omega
  | vector elem ih | list elem ih | set elem ih => exact lexLt_asymm ih left right hlt
  | map key val ihKey ihVal =>
      refine lexLt_asymm ?_ left right hlt
      intro left right hlt
      simp only [Bool.or_eq_true, Bool.and_eq_true, Bool.not_eq_true'] at hlt
      simp only [Bool.or_eq_false_iff, Bool.and_eq_false_iff, Bool.not_eq_false']
      rcases hlt with hkey | ⟨hkey, hval⟩
      · exact ⟨ihKey _ _ hkey, Or.inl hkey⟩
      · exact ⟨hkey, Or.inr (ihVal _ _ hval)⟩

end Ty

namespace DataStream

/-- A key above all present ones is appended. -/
theorem insertKey_of_forall_lt {α : Type} {lt : α → α → Bool}
    (hasymm : ∀ left right, lt left right = true → lt right left = false) (elem : α)
    (present : List α) (habove : ∀ other ∈ present, lt other elem = true) :
    insertKey lt elem present = present ++ [elem] := by
  induction present with
  | nil => rfl
  | cons head tail ih =>
      have hhead := habove head (by simp)
      rw [insertKey, if_neg (by simp [hasymm _ _ hhead]), if_pos hhead,
        ih fun other hother => habove other (by simp [hother])]
      rfl

/-- Inserting the elements of a set in order rebuilds the set. -/
theorem foldl_insertKey {α : Type} {lt : α → α → Bool}
    (hasymm : ∀ left right, lt left right = true → lt right left = false)
    (present value : List α)
    (hsorted : (present ++ value).Pairwise fun left right => lt left right = true) :
    value.foldl (fun acc elem => insertKey lt elem acc) present = present ++ value := by
  induction value generalizing present with
  | nil => simp
  | cons elem value ih =>
      have habove : ∀ other ∈ present, lt other elem = true := fun other hother =>
        (List.pairwise_append.mp hsorted).2.2 other hother elem (by simp)
      rw [List.foldl_cons, insertKey_of_forall_lt hasymm elem present habove,
        ih (present ++ [elem]) (by simpa using hsorted)]
      simp

theorem foldl_push {α : Type} (present value : List α) :
    value.foldl (fun acc elem => acc ++ [elem]) present = present ++ value := by
  induction value generalizing present with
  | nil => simp
  | cons elem value ih => simp [ih]

/-! ## Reading the elements -/

variable {α σ : Type}

theorem Consumes.map {reader : ReadM α} {bytes : List Byte} {excess : ℕ} {middle : α}
    (hreader : Consumes reader bytes excess middle) (finish : α → σ) :
    Consumes (do return finish (← reader)) bytes excess (finish middle) := by
  intro before after state hbuf hpos
  obtain ⟨state', hrun, hstream, hflag⟩ := hreader before after state hbuf hpos
  refine ⟨state', ?_, hstream, hflag⟩
  change (finish (reader state).1, (reader state).2) = _
  rw [hrun]

/-- The loop over the elements: every element but the last has to stop exactly
at its end, and the excess of the last is that of the loop. -/
theorem consumes_readElements {readOne : ReadM α} {encodeElem : α → List Byte}
    {excessElem : α → ℕ} (store : σ → α → σ) (value : List α)
    (hinit : ∀ elem ∈ value.dropLast, Consumes readOne (encodeElem elem) 0 elem)
    (hlast : ∀ elem ∈ value.getLast?, Consumes readOne (encodeElem elem) (excessElem elem) elem)
    (acc : σ) :
    Consumes (readElements readOne store value.length acc) (value.flatMap encodeElem)
      ((value.getLast?.map excessElem).getD 0) (value.foldl store acc) := by
  induction value generalizing acc with
  | nil => exact Consumes.pure acc
  | cons elem value ih =>
      cases value with
      | nil =>
          have helem := (hlast elem rfl).map (store acc)
          rwa [← List.append_nil (encodeElem elem)] at helem
      | cons next value =>
          refine (hinit elem (by simp)).bind (ih ?_ ?_ (store acc elem))
          · intro other hother
            exact hinit other (by simp [hother])
          · intro other hother
            exact hlast other (by simpa using hother)

theorem consumes_readSequence (env : Env) (type : DataType) {readOne : ReadM α}
    {encodeElem : α → List Byte} {excessElem : α → ℕ} (store : List α → α → List α)
    (value : List α) (hstore : value.foldl store [] = value) (hbound : value.length < 2 ^ 31)
    (hinit : ∀ elem ∈ value.dropLast, Consumes readOne (encodeElem elem) 0 elem)
    (hlast : ∀ elem ∈ value.getLast?, Consumes readOne (encodeElem elem) (excessElem elem) elem) :
    Consumes (readSequence env type readOne store) (encodeSequence type encodeElem value)
      ((value.getLast?.map excessElem).getD 0 + value.length) (true, value) := by
  have hlen := toInt_intSize value hbound
  apply consumes_tagged env type (false, [])
  apply (consumes_readLen env value).bind
  have helems := consumes_readElements store value hinit hlast []
  rw [hstore] at helems
  have hcount : (intSize value).toInt.toNat = value.length := by omega
  rw [hcount, hlen]
  exact helems.map_advance value.length fun value => (true, value)

end DataStream

namespace Ty

variable (env : Env)

/-- An uninitialised element takes no bytes, whatever it holds. -/
theorem consumes_readNew (type : Ty) {bytes : List Byte} {excess : ℕ} {value : type.Value}
    (hread : ∀ old, Consumes (type.read env old) bytes excess (true, value)) :
    Consumes (readNew (type.declare env) (type.read env)) bytes excess value := by
  have hresult : ∀ old, Consumes (do
      let (_, elem) ← type.read env old
      return elem) bytes excess value := fun old => (hread old).map Prod.snd
  cases type with
  | bool => exact consumes_declareWord env fun word => hresult (decide (word ≠ 0))
  | char | int16 | int32 | int64 | float | double => exact consumes_declareWord env hresult
  | string | vector | list | set | map => exact hresult []

/-- Every element occupies at least its own bytes in the encoding. -/
theorem length_le_of_mem {α : Type} (encodeElem : α → List Byte) (type : DataType)
    (value : List α) (elem : α) (hmem : elem ∈ value) :
    (encodeElem elem).length ≤ (encodeSequence type encodeElem value).length := by
  have hsum : (encodeElem elem).length ≤ (value.flatMap encodeElem).length := by
    rw [List.length_flatMap]
    exact List.le_sum_of_mem (List.mem_map_of_mem hmem)
  simp only [encodeSequence, List.length_cons, List.length_append]
  omega

/-- Encodings are not empty. -/
theorem length_encode_pos (type : Ty) (value : type.Value) : 0 < (type.encode value).length := by
  cases type <;> exact Nat.succ_pos _

/-- There are no more elements than bytes. -/
theorem length_le_length_encodeSequence (elem : Ty) (type : DataType) (value : List elem.Value) :
    value.length ≤ (encodeSequence type elem.encode value).length := by
  have hsum : value.length ≤ (value.flatMap elem.encode).length := by
    rw [List.length_flatMap]
    calc
      value.length = (value.map fun _ => 1).sum := by simp
      _ ≤ (value.map fun item => (elem.encode item).length).sum :=
        List.sum_le_sum fun item _ => elem.length_encode_pos item
  simp only [encodeSequence, List.length_cons, List.length_append]
  omega

/-- One level of nesting: the elements of a container are read from their own
encodings, and only the last may leave the cursor off its end. -/
theorem consumes_level (elem : Ty) (hsequence : elem.isSequence) (type : DataType)
    (store : List elem.Value → elem.Value → List elem.Value)
    (ih : ∀ old value, elem.Valid value → (elem.encode value).length ≤ sizeBound →
      elem.TailNested value →
      Consumes (elem.read env old) (elem.encode value) (elem.excess value) (true, value))
    (value : List elem.Value) (hstore : value.foldl store [] = value)
    (hvalid : ∀ item ∈ value, elem.Valid item)
    (hsize : (encodeSequence type elem.encode value).length ≤ sizeBound)
    (hinit : ∀ item ∈ value.dropLast, elem.Settled item)
    (hlast : ∀ item ∈ value.getLast?, elem.TailNested item) :
    Consumes (readSequence env type (readNew (elem.declare env) (elem.read env)) store)
      (encodeSequence type elem.encode value)
      ((value.getLast?.map elem.excess).getD 0 + value.length) (true, value) := by
  have hitem : ∀ item ∈ value, (elem.encode item).length ≤ sizeBound := fun item hmem =>
    (length_le_of_mem elem.encode type value item hmem).trans hsize
  have hcount := (elem.length_le_length_encodeSequence type value).trans hsize
  refine consumes_readSequence env type store value hstore
    (by simp only [sizeBound] at hcount; omega) ?_ ?_
  · intro item hitemInit
    have hmem := List.mem_of_mem_dropLast hitemInit
    have hsettled := hinit item hitemInit
    have hread := fun old => ih old item (hvalid item hmem) (hitem item hmem) hsettled.tailNested
    rw [(elem.excess_eq_zero_iff hsequence item).mpr hsettled] at hread
    exact elem.consumes_readNew env hread
  · intro item hitemLast
    have hmem := List.mem_of_getLast? hitemLast
    exact elem.consumes_readNew env fun old =>
      ih old item (hvalid item hmem) (hitem item hmem) (hlast item hitemLast)

/-- The cursor after a read, over all nestings of vectors and sets in which no
non-empty container is followed by a sibling. -/
theorem consumes_read (type : Ty) (hsequence : type.isSequence) (old value : type.Value)
    (hvalid : type.Valid value) (hsize : (type.encode value).length ≤ sizeBound)
    (htail : type.TailNested value) :
    Consumes (type.read env old) (type.encode value) (type.excess value) (true, value) := by
  induction type with
  | bool | char | int16 | int32 | int64 | float | double | string =>
      exact consumes_flat env _ rfl old value hsize
  | list | map => simp [isSequence] at hsequence
  | vector elem ih =>
      exact consumes_level env elem hsequence .vector _ (ih hsequence) value
        (foldl_push [] value) hvalid hsize htail.1 htail.2
  | set elem ih =>
      exact consumes_level env elem hsequence .set _ (ih hsequence) value
        (foldl_insertKey elem.lt_asymm [] value hvalid.1) hvalid.2 hsize htail.1 htail.2

end Ty

/-! ## Two values in a row -/

/-- Two values on a fresh stream, and the objects they are read into. -/
structure Pair where
  first : Ty
  second : Ty
  left : first.Value
  right : second.Value
  oldLeft : first.Value
  oldRight : second.Value

namespace Pair

variable (env : Env) (pair : Pair)

def write : Option DataStream := do
  pair.second.write pair.right (← pair.first.write pair.left fresh)

def readLeft (stream : DataStream) : (Bool × pair.first.Value) × ReadState :=
  pair.first.read env pair.oldLeft stream.reader

def readRight (stream : DataStream) : (Bool × pair.second.Value) × ReadState :=
  pair.second.read env pair.oldRight (pair.readLeft env stream).2

/-- Both reads succeed with the values written. -/
def Yields (stream : DataStream) : Prop :=
  (pair.readLeft env stream).1 = (true, pair.left) ∧
    (pair.readRight env stream).1 = (true, pair.right)

/-- Each read consumes exactly the bytes of its value. -/
def ConsumesExactly (stream : DataStream) : Prop :=
  (pair.readLeft env stream).2.stream.mPos = (pair.first.encode pair.left).length ∧
    (pair.readRight env stream).2.stream.mPos =
      (pair.first.encode pair.left).length + (pair.second.encode pair.right).length

/-- Types built by `vector` and `set`, values that sets can hold, and a total
encoding that the stream can hold. -/
structure Supported : Prop where
  first : pair.first.isSequence
  second : pair.second.isSequence
  left : pair.first.Valid pair.left
  right : pair.second.Valid pair.right
  size : (pair.first.encode pair.left).length + (pair.second.encode pair.right).length ≤ 2 ^ 30

variable {pair} {stream : DataStream}

theorem appends_of_write (hsupported : pair.Supported) :
    ∃ stream, pair.write = some stream ∧
      stream.mBuf = pair.first.encode pair.left ++ pair.second.encode pair.right ∧
      stream.mPos = 0 := by
  have hwrites := (pair.first.writes_write pair.left).bind (pair.second.writes_write pair.right)
  obtain ⟨stream, hwrite, hbuf, hpos⟩ := hwrites fresh (by
    simpa [fresh, sizeBound] using hsupported.size)
  exact ⟨stream, hwrite, by simpa [fresh] using hbuf, hpos⟩

theorem readLeft_of_tailNested (hsupported : pair.Supported)
    (hbuf : stream.mBuf = pair.first.encode pair.left ++ pair.second.encode pair.right)
    (hpos : stream.mPos = 0) (htail : pair.first.TailNested pair.left) :
    (pair.readLeft env stream).1 = (true, pair.left) ∧
      (pair.readLeft env stream).2.stream = { stream with
        mPos := (pair.first.encode pair.left).length + pair.first.excess pair.left } := by
  have hsize := hsupported.size
  obtain ⟨state, hrun, hstream, -⟩ := pair.first.consumes_read env hsupported.first pair.oldLeft
    pair.left hsupported.left (by simp only [sizeBound]; omega) htail [] _ stream.reader
    (by simpa [reader] using hbuf) (by simpa [reader] using hpos)
  rw [readLeft, hrun]
  exact ⟨rfl, by simpa [reader] using hstream⟩

theorem readRight_of_tailNested (hsupported : pair.Supported)
    (hbuf : stream.mBuf = pair.first.encode pair.left ++ pair.second.encode pair.right)
    (hpos : stream.mPos = 0) (hsettled : pair.first.Settled pair.left)
    (htail : pair.second.TailNested pair.right) :
    (pair.readRight env stream).1 = (true, pair.right) ∧
      (pair.readRight env stream).2.stream.mPos =
        (pair.first.encode pair.left).length + (pair.second.encode pair.right).length +
          pair.second.excess pair.right := by
  have hsize := hsupported.size
  obtain ⟨-, hleft⟩ := readLeft_of_tailNested env hsupported hbuf hpos hsettled.tailNested
  have hzero := (pair.first.excess_eq_zero_iff hsupported.first pair.left).mpr hsettled
  obtain ⟨state, hrun, hstream, -⟩ := pair.second.consumes_read env hsupported.second
    pair.oldRight pair.right hsupported.right (by simp only [sizeBound]; omega) htail
    (pair.first.encode pair.left) [] (pair.readLeft env stream).2
    (by simp [hleft, hbuf]) (by simp [hleft, hzero])
  rw [readRight, hrun]
  exact ⟨rfl, by rw [hstream]⟩

/-- Reads compose if neither value is a non-empty container, and, over the
values whose containers are nested at their ends only, in no other case.  The
values alone come out right already if the first one is no such container. -/
theorem reads_compose (env : Env) (pair : Pair) (hsupported : pair.Supported) :
    ∃ stream, pair.write = some stream ∧
      (pair.first.Settled pair.left ∧ pair.second.Settled pair.right →
        pair.Yields env stream ∧ pair.ConsumesExactly env stream) ∧
      (pair.first.Settled pair.left ∧ pair.second.TailNested pair.right →
        pair.Yields env stream) ∧
      (pair.first.TailNested pair.left ∧ pair.second.TailNested pair.right →
        pair.ConsumesExactly env stream →
          pair.first.Settled pair.left ∧ pair.second.Settled pair.right) := by
  obtain ⟨stream, hwrite, hbuf, hpos⟩ := appends_of_write hsupported
  refine ⟨stream, hwrite, ?_, ?_, ?_⟩
  · rintro ⟨hleft, hright⟩
    have hreadLeft := readLeft_of_tailNested env hsupported hbuf hpos hleft.tailNested
    have hreadRight := readRight_of_tailNested env hsupported hbuf hpos hleft hright.tailNested
    have hzeroLeft := (pair.first.excess_eq_zero_iff hsupported.first _).mpr hleft
    have hzeroRight := (pair.second.excess_eq_zero_iff hsupported.second _).mpr hright
    refine ⟨⟨hreadLeft.1, hreadRight.1⟩, ?_, ?_⟩
    · simp [hreadLeft.2, hzeroLeft]
    · simp [hreadRight.2, hzeroRight]
  · rintro ⟨hleft, htail⟩
    exact ⟨(readLeft_of_tailNested env hsupported hbuf hpos hleft.tailNested).1,
      (readRight_of_tailNested env hsupported hbuf hpos hleft htail).1⟩
  · rintro ⟨htailLeft, htailRight⟩ ⟨hexactLeft, hexactRight⟩
    have hreadLeft := readLeft_of_tailNested env hsupported hbuf hpos htailLeft
    rw [hreadLeft.2] at hexactLeft
    have hleft := (pair.first.excess_eq_zero_iff hsupported.first pair.left).mp (by
      simp only at hexactLeft
      omega)
    have hreadRight := readRight_of_tailNested env hsupported hbuf hpos hleft htailRight
    rw [hreadRight.2] at hexactRight
    exact ⟨hleft, (pair.second.excess_eq_zero_iff hsupported.second pair.right).mp (by omega)⟩

/-- An empty set, and behind it a vector of vectors that ends in a full one. -/
def emptyThenNested : Pair where
  first := .set .int32
  second := .vector (.vector .char)
  left := ([] : List (Word 4))
  right := ([[], [0x61]] : List (List (Word 1)))
  oldLeft := ([] : List (Word 4))
  oldRight := ([] : List (List (Word 1)))

theorem emptyThenNested_supported : emptyThenNested.Supported where
  first := rfl
  second := rfl
  left := ⟨List.Pairwise.nil, List.forall_mem_nil _⟩
  right := fun _ _ _ _ => trivial
  size := by decide

theorem reads_compose_emptyThenNested :
    ∃ stream, emptyThenNested.write = some stream ∧
      (emptyThenNested.first.Settled emptyThenNested.left ∧
          emptyThenNested.second.Settled emptyThenNested.right →
        emptyThenNested.Yields ⟨fun _ => 0, fun _ => 0⟩ stream ∧
          emptyThenNested.ConsumesExactly ⟨fun _ => 0, fun _ => 0⟩ stream) ∧
      (emptyThenNested.first.Settled emptyThenNested.left ∧
          emptyThenNested.second.TailNested emptyThenNested.right →
        emptyThenNested.Yields ⟨fun _ => 0, fun _ => 0⟩ stream) ∧
      (emptyThenNested.first.TailNested emptyThenNested.left ∧
          emptyThenNested.second.TailNested emptyThenNested.right →
        emptyThenNested.ConsumesExactly ⟨fun _ => 0, fun _ => 0⟩ stream →
          emptyThenNested.first.Settled emptyThenNested.left ∧
            emptyThenNested.second.Settled emptyThenNested.right) :=
  reads_compose ⟨fun _ => 0, fun _ => 0⟩ emptyThenNested emptyThenNested_supported

/-- Away from the ends two errors can cancel: four elements and the count two
make up for the six bytes of an inner vector that is never read. -/
def cancelling : Pair where
  first := .vector (.vector .int32)
  second := .int32
  left := ([[1, 2, 3, 4], []] : List (List (Word 4)))
  right := (7 : Word 4)
  oldLeft := ([] : List (List (Word 4)))
  oldRight := (0 : Word 4)

example : ∃ stream, cancelling.write = some stream ∧
    cancelling.Yields ⟨fun _ => 0, fun _ => 0⟩ stream ∧
    cancelling.ConsumesExactly ⟨fun _ => 0, fun _ => 0⟩ stream :=
  ⟨cancelling.write.get (by decide +kernel), by simp,
    ⟨by decide +kernel, by decide +kernel⟩, ⟨by decide +kernel, by decide +kernel⟩⟩

/-- The set `{0, 1, 2, 3, 4}`, and behind it the `int` 7. -/
def setThenInt : Pair where
  first := .set .int32
  second := .int32
  left := ([0, 1, 2, 3, 4] : List (Word 4))
  right := (7 : Word 4)
  oldLeft := ([] : List (Word 4))
  oldRight := (0 : Word 4)

theorem setThenInt_supported : setThenInt.Supported where
  first := rfl
  second := rfl
  left := by
    refine ⟨?_, fun _ _ => trivial⟩
    change List.Pairwise (fun left right : Word 4 => left.slt right = true) [0, 1, 2, 3, 4]
    decide
  right := trivial
  size := by decide

/-- The `int` behind the set is not read back. -/
theorem reads_do_not_compose :
    ¬∀ (env : Env) (pair : Pair), pair.Supported →
      ∃ stream, pair.write = some stream ∧ pair.Yields env stream := by
  intro hcompose
  obtain ⟨stream, hwrite, -, hright⟩ :=
    hcompose ⟨fun _ => 0, fun _ => 0⟩ setThenInt setThenInt_supported
  obtain rfl : setThenInt.write.get (by decide +kernel) = stream := by
    simp [hwrite]
  exact absurd hright (by decide +kernel)

end Pair

end CppProjects
