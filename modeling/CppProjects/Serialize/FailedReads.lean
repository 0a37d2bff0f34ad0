import CppProjects.Serialize.FlatRoundTrip
import CppProjects.Serialize.TypeTags

/-!
# What a failed read leaves behind

A read that is refused should leave the cursor and the destination as they were.
The containers clear their destination before they look at the tag, and a string
has moved the cursor before it looks at the count.
-/

namespace CppProjects

open LittleEndian DataStream

namespace Ty

variable (env : Env)

/-- If the read fails, neither the cursor nor the destination has changed. -/
def RollsBack (type : Ty) (old : type.Value) (state : ReadState) : Prop :=
  (type.read env old state).1.1 = false →
    (type.read env old state).2.stream.mPos = state.stream.mPos ∧ (type.read env old state).1.2 = old

/-- The byte at the cursor is the tag of the type. -/
def TagMatches (type : Ty) (state : ReadState) : Prop :=
  state.stream.byteAt env state.stream.mPos = type.kind.code

/-- What stands behind the tag of a string: the word of an `int32_t` record, or what
an uninitialised local holds. -/
def countBehind (state : ReadState) : Word 4 :=
  let pos := state.stream.mPos
  if state.stream.byteAt env (pos + 1) = DataType.int32.code then
    decodeWord 4 ((List.range 4).map fun offset : ℕ => state.stream.byteAt env (pos + 2 + offset))
  else (env.indeterminate state.declared).setWidth _

/-- The condition under which a failed read can be retried. -/
def Retriable : (type : Ty) → type.Value → ReadState → Prop
  | string => fun _ state => string.TagMatches env state → 0 ≤ (countBehind env state).toInt
  | vector elem => fun (old : List elem.Value) state => (vector elem).TagMatches env state ∨ old = []
  | list elem => fun (old : List elem.Value) state => (list elem).TagMatches env state ∨ old = []
  | set elem => fun (old : List elem.Value) state => (set elem).TagMatches env state ∨ old = []
  | map key val => fun (old : List (key.Value × val.Value)) state =>
      (map key val).TagMatches env state ∨ old = []
  | _ => fun _ _ => True

variable {env} {type : Ty} {old : type.Value} {state : ReadState}

theorem load_one (env : Env) (state : ReadState) :
    (load env 1 state).1 = [state.stream.byteAt env state.stream.mPos] := by
  simp [load]

theorem load_eq_of_tagMatches (htag : type.TagMatches env state) :
    (load env 1 state).1 = [type.kind.code] := by
  rw [load_one, htag]

theorem load_ne_of_not_tagMatches (htag : ¬ type.TagMatches env state) :
    (load env 1 state).1 ≠ [type.kind.code] := by
  rw [load_one]
  exact fun heq => htag (List.singleton_inj.mp heq)

/-! ## The count of a string -/

/-- A read of the count behind the tag finds it there and moves the cursor on. -/
theorem readLen_behind (env : Env) (state : ReadState) (flag : Bool) :
    (readLen env ⟨{ state.stream with mPos := state.stream.mPos + 1 }, flag, state.declared⟩).1 =
        countBehind env state ∧
      state.stream.mPos < (readLen env ⟨{ state.stream with mPos := state.stream.mPos + 1 }, flag,
        state.declared⟩).2.stream.mPos := by
  let counting : ReadState :=
    ⟨{ state.stream with mPos := state.stream.mPos + 1 }, flag, state.declared + 1⟩
  let word : Word 4 := (env.indeterminate state.declared).setWidth _
  change (readInt32 env word counting).1.2 = _ ∧ _ < (readInt32 env word counting).2.stream.mPos
  by_cases htag : state.stream.byteAt env (state.stream.mPos + 1) = DataType.int32.code
  · have hload : (load env 1 counting).1 = [DataType.int32.code] := by
      rw [load_one, ← htag]
      rfl
    let loading : ReadState := { (load env 1 counting).2 with
      stream.mPos := state.stream.mPos + 1 + 1 }
    have hread : readInt32 env word counting = ((true, decodeWord 4 (load env 4 loading).1),
        { (load env 4 loading).2 with stream.mPos := state.stream.mPos + 1 + 1 + 4 }) := by
      rw [readInt32, readFixed, tagged_of_eq env _ hload]
      rfl
    rw [hread, countBehind]
    dsimp only
    rw [if_pos htag]
    refine ⟨?_, by omega⟩
    have hpos : state.stream.mPos + 1 + 1 = state.stream.mPos + 2 := by omega
    change decodeWord 4 ((List.range 4).map fun offset : ℕ =>
      state.stream.byteAt env (state.stream.mPos + 1 + 1 + offset)) = _
    rw [hpos]
  · have hload : (load env 1 counting).1 ≠ [DataType.int32.code] := by
      rw [load_one]
      exact fun heq => htag (List.singleton_inj.mp heq)
    have hread : readInt32 env word counting = ((false, word), (load env 1 counting).2) := by
      rw [readInt32, readFixed, tagged_of_ne env hload]
    rw [hread, countBehind]
    dsimp only
    rw [if_neg htag]
    exact ⟨rfl, lt_add_one _⟩

/-- A string whose tag is there is refused exactly for a negative count, with the
cursor behind the tag. -/
theorem readString_of_tagMatches (old : List Byte) (htag : string.TagMatches env state) :
    ((countBehind env state).toInt < 0 → (readString env old state).1.1 = false ∧
      state.stream.mPos < (readString env old state).2.stream.mPos) ∧
    (0 ≤ (countBehind env state).toInt → (readString env old state).1.1 = true) := by
  have hload : (load env 1 state).1 = [DataType.string.code] := load_eq_of_tagMatches htag
  let counting : ReadState := ⟨{ state.stream with mPos := state.stream.mPos + 1 },
    (load env 1 state).2.outOfBounds, state.declared⟩
  obtain ⟨hcount, hmoved⟩ : (readLen env counting).1 = countBehind env state ∧
      state.stream.mPos < (readLen env counting).2.stream.mPos := readLen_behind env state _
  have hread : readString env old state =
      (if (readLen env counting).1.toInt < 0 then pure (false, old) else do
        let bytes ← load env (readLen env counting).1.toInt.toNat
        advance (readLen env counting).1.toInt
        return (true, bytes) : ReadM (Bool × List Byte)) (readLen env counting).2 := by
    rw [readString, tagged_of_eq env _ hload]
    rfl
  rw [hread, hcount]
  constructor
  · intro hnegative
    rw [if_pos hnegative]
    exact ⟨rfl, hmoved⟩
  · intro hnonneg
    rw [if_neg (not_lt.mpr hnonneg)]
    rfl

/-! ## Every read -/

/-- A failed read of a container has only looked at the tag and cleared the
destination. -/
theorem read_of_not_tagMatches (type : Ty) (old : type.Value) (htag : ¬ type.TagMatches env state) :
    (type.read env old state).1.1 = false ∧
      (type.read env old state).2.stream.mPos = state.stream.mPos := by
  have hload := load_ne_of_not_tagMatches htag
  refine ⟨read_of_tag_ne env type old state hload, ?_⟩
  have hstop : (type.read env old state).2 = (load env 1 state).2 := by
    cases type <;> exact congrArg Prod.snd (tagged_of_ne env hload)
  rw [hstop]
  rfl

/-- Behind a tag that is not there, a container is cleared and anything else is kept. -/
theorem rollsBack_of_not_tagMatches (type : Ty) (old : type.Value)
    (htag : ¬ type.TagMatches env state) :
    type.RollsBack env old state ↔ (type.read env old state).1.2 = old := by
  obtain ⟨hfailed, hpos⟩ := read_of_not_tagMatches type old htag
  exact ⟨fun hrolls => (hrolls hfailed).2, fun hold _ => ⟨hpos, hold⟩⟩

/-- The destination after a read whose tag is not there. -/
theorem value_of_not_tagMatches (type : Ty) (old : type.Value) (htag : ¬ type.TagMatches env state) :
    type.Retriable env old state ↔ (type.read env old state).1.2 = old := by
  have hload := load_ne_of_not_tagMatches htag
  cases type with
  | bool | char | int16 | int32 | int64 | float | double =>
      refine iff_of_true trivial ?_
      exact congrArg (fun run : (Bool × _) × ReadState => run.1.2) (tagged_of_ne env hload)
  | string =>
      refine iff_of_true (fun hmatches => absurd hmatches htag) ?_
      exact congrArg (fun run : (Bool × _) × ReadState => run.1.2) (tagged_of_ne env hload)
  | vector elem | list elem | set elem =>
      have hcleared : (Ty.read env _ old state).1.2 = ([] : List elem.Value) :=
        congrArg (fun run : (Bool × _) × ReadState => run.1.2) (tagged_of_ne env hload)
      rw [hcleared]
      exact (or_iff_right htag).trans eq_comm
  | map key val =>
      have hcleared : (Ty.read env _ old state).1.2 = ([] : List (key.Value × val.Value)) :=
        congrArg (fun run : (Bool × _) × ReadState => run.1.2) (tagged_of_ne env hload)
      rw [hcleared]
      exact (or_iff_right htag).trans eq_comm

/-- A failed read can be retried exactly in these cases: it is one of a scalar; it is
one of a container, and the tag is there, so that it does not fail, or the destination
was empty; or it is one of a string with no tag, or with no negative count behind it. -/
theorem rollsBack_iff (env : Env) (type : Ty) (old : type.Value) (state : ReadState) :
    type.RollsBack env old state ↔ type.Retriable env old state := by
  by_cases htag : type.TagMatches env state
  · by_cases hstring : type = string
    · subst hstring
      obtain ⟨hnegative, hnonneg⟩ := readString_of_tagMatches old htag
      constructor
      · intro hrolls _
        by_contra hcount
        obtain ⟨hfailed, hmoved⟩ := hnegative (not_le.mp hcount)
        exact hmoved.ne' (hrolls hfailed).1
      · intro hretriable hfailed
        have haccepted : (read env string old state).1.1 = true := hnonneg (hretriable htag)
        rw [hfailed] at haccepted
        cases haccepted
    · have haccepted := read_of_tag_eq env type hstring old state (load_eq_of_tagMatches htag)
      refine iff_of_true (fun hfailed => ?_) ?_
      · rw [hfailed] at haccepted
        cases haccepted
      · cases type with
        | string => exact absurd rfl hstring
        | vector elem | list elem | set elem => exact .inl htag
        | map key val => exact .inl htag
        | _ => trivial
  · rw [rollsBack_of_not_tagMatches type old htag, value_of_not_tagMatches type old htag]

/-- A vector with an element is read where an `int32_t` stands, and a string where its
count is negative. -/
theorem not_rollsBack :
    ¬ (vector .int32).RollsBack ⟨fun _ => 0, fun _ => 0⟩ ([7] : List (Word 4))
      ⟨⟨[3, 1, 0, 0, 0], 8, 0⟩, false, 0⟩ ∧
    ¬ string.RollsBack ⟨fun _ => 0, fun _ => 0⟩ ([0x61] : List Byte)
      ⟨⟨[7, 3, 0xFF, 0xFF, 0xFF, 0xFF], 8, 0⟩, false, 0⟩ := by
  constructor
  · intro hrolls
    have hcleared : ([] : List (Word 4)) = [7] := (hrolls (by decide)).2
    cases hcleared
  · intro hrolls
    exact absurd (hrolls (by decide)).1 (by decide)

end Ty

end CppProjects
