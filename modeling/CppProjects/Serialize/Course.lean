import CppProjects.Serialize.FlatRoundTrip

/-!
# Reads and the end of the buffer

Where the tags and the counts in the buffer send the cursor, for every type and
whatever the bytes are.  A count that no record provides is left uninitialised, so
a cursor may have several courses.  A read uses an index outside the buffer exactly
if one of them does.
-/

namespace CppProjects

open LittleEndian DataStream

/-! ## Courses -/

/-- From a position, `some` is a result together with the position reached and
`none` is a look outside the buffer. -/
def Course (α : Type) : Type := ℤ → Option (α × ℤ) → Prop

namespace Course

variable {α β : Type}

def stop (value : α) : Course α := fun pos out => out = some (value, pos)

def andThen (first : Course α) (next : α → Course β) : Course β := fun pos out =>
  (first pos none ∧ out = none) ∨
    ∃ value middle, first pos (some (value, middle)) ∧ next value middle out

instance : Monad Course where
  pure := stop
  bind := andThen

/-- The next bytes. -/
def look (buf : List Byte) (len : ℕ) : Course (List Byte) := fun pos out =>
  out = if len = 0 ∨ (0 ≤ pos ∧ pos + len ≤ buf.length)
    then some ((buf.drop pos.toNat).take len, pos) else none

def move (len : ℤ) : Course Unit := fun pos out => out = some ((), pos + len)

/-- What an uninitialised local holds. -/
def any : Course α := fun pos out => ∃ value, out = some (value, pos)

def repeated (one : Course Unit) : ℕ → Course Unit
  | 0 => return ()
  | rounds + 1 => do
      one
      repeated one rounds

variable (buf : List Byte)

/-- A tag, and what follows if it is there. -/
def tagged (type : DataType) (failed : α) (rest : Course α) : Course α := do
  if (← look buf 1) ≠ [type.code] then return failed
  move 1
  rest

def fixed (type : DataType) (width : ℕ) : Course Unit :=
  tagged buf type () do
    let _ ← look buf width
    move width

/-- The count of a string or a container. -/
def count : Course (Word 4) := do
  let old ← any
  tagged buf .int32 old do
    let bytes ← look buf 4
    move 4
    return decodeWord 4 bytes

def string : Course Unit :=
  tagged buf .string () do
    let len ← count buf
    if len.toInt < 0 then return ()
    let _ ← look buf len.toInt.toNat
    move len.toInt

/-- The elements of a container, and one more byte for each it counted. -/
def container (type : DataType) (rounds : ℕ → ℕ) (elem : Course Unit) : Course Unit :=
  tagged buf type () do
    let len ← count buf
    repeated elem (rounds len.toInt.toNat)
    move len.toInt

end Course

/-- The courses of the cursor in a read of the type. -/
def Ty.course (buf : List Byte) : Ty → Course Unit
  | bool => Course.fixed buf .bool 1
  | char => Course.fixed buf .char 1
  | int16 => Course.fixed buf .int16 2
  | int32 => Course.fixed buf .int32 4
  | int64 => Course.fixed buf .int64 8
  | float => Course.fixed buf .float 4
  | double => Course.fixed buf .double 8
  | string => Course.string buf
  | vector elem => Course.container buf .vector id (elem.course buf)
  | list elem => Course.container buf .list id (elem.course buf)
  | set elem => Course.container buf .set id (elem.course buf)
  | map key val => Course.container buf .map (fun len => (len + 1) / 2) do
      key.course buf
      val.course buf

/-! ## Readers follow courses -/

/-- What the environment leaves in the first locals. -/
def Env.Agrees (env : Env) (chosen : ℕ → Word 8) (bound : ℕ) : Prop :=
  ∀ i < bound, env.indeterminate i = chosen i

namespace DataStream

variable {α β γ δ : Type}

/-- In bounds up to here, with the cursor at `pos` and `declared` locals. -/
def standing (stream : DataStream) (pos : ℤ) (declared : ℕ) : ReadState :=
  ⟨{ stream with mPos := pos }, false, declared⟩

/-- Every run of the reader takes one of the courses, and for every course there are
values of the uninitialised locals with which the reader takes it. -/
structure Follows (buf : List Byte) (reader : Env → ReadM α) (course : Course β) (view : α → β) :
    Prop where
  sticky : ∀ env state, state.outOfBounds = true → (reader env state).2.outOfBounds = true
  sound : ∀ env stream pos declared, stream.mBuf = buf →
    (course pos none ∧ (reader env (standing stream pos declared)).2.outOfBounds = true) ∨
    ∃ value pos' declared', course pos (some (view value, pos')) ∧
      reader env (standing stream pos declared) = (value, standing stream pos' declared')
  leaves : ∀ stream pos declared (chosen : ℕ → Word 8), stream.mBuf = buf → course pos none →
    ∃ (chosen' : ℕ → Word 8) (bound : ℕ), (∀ i < declared, chosen' i = chosen i) ∧
      ∀ env : Env, env.Agrees chosen' bound →
        (reader env (standing stream pos declared)).2.outOfBounds = true
  arrives : ∀ stream pos declared (chosen : ℕ → Word 8) result pos', stream.mBuf = buf →
    course pos (some (result, pos')) →
    ∃ (chosen' : ℕ → Word 8) (bound : ℕ) (value : α), (∀ i < declared, chosen' i = chosen i) ∧
      declared ≤ bound ∧ view value = result ∧ ∀ env : Env, env.Agrees chosen' bound →
        reader env (standing stream pos declared) = (value, standing stream pos' bound)

variable {buf : List Byte}

theorem follows_pure (value : α) (view : α → β) :
    Follows buf (fun _ => pure value) (pure (view value)) view where
  sticky _ _ hstate := hstate
  sound _ _ pos declared _ := Or.inr ⟨value, pos, declared, rfl, rfl⟩
  leaves _ _ _ _ _ hcourse := by cases hcourse
  arrives _ pos declared chosen result pos' _ hcourse := by
    cases hcourse
    exact ⟨chosen, declared, value, fun _ _ => rfl, le_rfl, rfl, fun _ _ => rfl⟩

theorem Follows.bind {reader : Env → ReadM α} {course : Course β} {view : α → β}
    {next : Env → α → ReadM γ} {onward : β → Course δ} {view' : γ → δ}
    (hreader : Follows buf reader course view)
    (hnext : ∀ value, Follows buf (fun env => next env value) (onward (view value)) view') :
    Follows buf (fun env => reader env >>= next env) (course >>= onward) view' where
  sticky env state hstate := (hnext _).sticky env _ (hreader.sticky env state hstate)
  sound env stream pos declared hbuf := by
    rcases hreader.sound env stream pos declared hbuf with
      ⟨hcourse, hflag⟩ | ⟨value, pos', declared', hcourse, hrun⟩
    · exact Or.inl ⟨Or.inl ⟨hcourse, rfl⟩, (hnext _).sticky env _ hflag⟩
    · have hcont : (reader env >>= next env) (standing stream pos declared) =
          next env value (standing stream pos' declared') := by
        change next env (reader env (standing stream pos declared)).1
          (reader env (standing stream pos declared)).2 = _
        rw [hrun]
      rw [hcont]
      rcases (hnext value).sound env stream pos' declared' hbuf with
        ⟨honward, hflag⟩ | ⟨value', pos'', declared'', honward, hrun'⟩
      · exact Or.inl ⟨Or.inr ⟨_, _, hcourse, honward⟩, hflag⟩
      · exact Or.inr ⟨value', pos'', declared'', Or.inr ⟨_, _, hcourse, honward⟩, hrun'⟩
  leaves stream pos declared chosen hbuf hcourse := by
    rcases hcourse with ⟨hfirst, -⟩ | ⟨value, middle, hfirst, honward⟩
    · obtain ⟨chosen', bound, hagree, hflag⟩ := hreader.leaves stream pos declared chosen hbuf hfirst
      exact ⟨chosen', bound, hagree, fun env henv => (hnext _).sticky env _ (hflag env henv)⟩
    · obtain ⟨chosen₁, bound₁, value₁, hagree₁, hle, rfl, hrun⟩ :=
        hreader.arrives stream pos declared chosen _ _ hbuf hfirst
      obtain ⟨chosen₂, bound₂, hagree₂, hflag⟩ :=
        (hnext value₁).leaves stream middle bound₁ chosen₁ hbuf honward
      refine ⟨chosen₂, max bound₁ bound₂, fun i hi => ?_, fun env henv => ?_⟩
      · rw [hagree₂ i (hi.trans_le hle), hagree₁ i hi]
      · have henv₁ : env.Agrees chosen₁ bound₁ := fun i hi => by
          rw [henv i (hi.trans_le (le_max_left _ _)), hagree₂ i hi]
        change (next env (reader env (standing stream pos declared)).1
          (reader env (standing stream pos declared)).2).2.outOfBounds = true
        rw [hrun env henv₁]
        exact hflag env fun i hi => henv i (hi.trans_le (le_max_right _ _))
  arrives stream pos declared chosen result pos' hbuf hcourse := by
    rcases hcourse with ⟨-, hnone⟩ | ⟨value, middle, hfirst, honward⟩
    · cases hnone
    · obtain ⟨chosen₁, bound₁, value₁, hagree₁, hle₁, rfl, hrun₁⟩ :=
        hreader.arrives stream pos declared chosen _ _ hbuf hfirst
      obtain ⟨chosen₂, bound₂, value₂, hagree₂, hle₂, hview, hrun₂⟩ :=
        (hnext value₁).arrives stream middle bound₁ chosen₁ _ _ hbuf honward
      refine ⟨chosen₂, bound₂, value₂, fun i hi => ?_, hle₁.trans hle₂, hview, fun env henv => ?_⟩
      · rw [hagree₂ i (hi.trans_le hle₁), hagree₁ i hi]
      · have henv₁ : env.Agrees chosen₁ bound₁ := fun i hi => by
          rw [henv i (hi.trans_le hle₂), hagree₂ i hi]
        change next env (reader env (standing stream pos declared)).1
          (reader env (standing stream pos declared)).2 = _
        rw [hrun₁ env henv₁]
        exact hrun₂ env henv

/-- Something is computed from the result, and the course shows as much as before. -/
theorem Follows.map {reader : Env → ReadM α} {course : Course β} {view : α → β}
    (hreader : Follows buf reader course view) (f : α → γ) (view' : γ → β)
    (hview : ∀ value, view' (f value) = view value) :
    Follows buf (fun env => do return f (← reader env)) course view' := by
  have hcourse : course = course >>= pure := by
    funext pos out
    apply propext
    constructor
    · intro hout
      cases out with
      | none => exact Or.inl ⟨hout, rfl⟩
      | some arrival => exact Or.inr ⟨arrival.1, arrival.2, hout, rfl⟩
    · rintro (⟨hout, rfl⟩ | ⟨value, middle, hout, rfl⟩)
      · exact hout
      · exact hout
  rw [hcourse]
  apply hreader.bind
  intro value
  rw [← hview value]
  exact follows_pure (f value) view'

theorem Follows.ite {c : Prop} [Decidable c] {yes no : Env → ReadM α} {yes' no' : Course β}
    {view : α → β} (hyes : Follows buf yes yes' view) (hno : Follows buf no no' view) :
    Follows buf (fun env => if c then yes env else no env) (if c then yes' else no') view := by
  split_ifs
  · exact hyes
  · exact hno

/-! ## The parts of a read -/

end DataStream

namespace Ty

variable {buf : List Byte}

end Ty

end CppProjects
