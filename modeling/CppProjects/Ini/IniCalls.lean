import CppProjects.Core.ListUpdate
import CppProjects.Core.TransitionSystem
import CppProjects.Ini.Stability

/-!
# Changes and queries

`IniFile` as a map from sections and keys to values.  `get` indexes both maps, so a
query for an entry that is not there creates it.
-/

namespace CppProjects

namespace IniFile

/-! ## The calls -/

/-- `m_sections[section][key] = value`. -/
def set (file : IniFile) (sectionName key : Text) (value : Value) : IniFile :=
  let (entries, sections) := file.mSections.index sectionName OrderedMap.empty
  ⟨sections.insert sectionName (entries.insert key value)⟩

/-- `m_sections[section][key]`, with the map behind it. -/
def get (file : IniFile) (sectionName key : Text) : Value × IniFile :=
  let (entries, sections) := file.mSections.index sectionName OrderedMap.empty
  let (value, entries) := entries.index key ⟨[]⟩
  (value, ⟨sections.insert sectionName entries⟩)

def has (file : IniFile) (sectionName key : Text) : Bool :=
  match file.mSections.find? sectionName with
  | none => false
  | some entries => (entries.find? key).isSome

def remove (file : IniFile) (sectionName : Text) : IniFile :=
  match file.mSections.find? sectionName with
  | none => file
  | some _ => ⟨file.mSections.erase sectionName⟩

/-- `remove` of a key in a section. -/
def removeKey (file : IniFile) (sectionName key : Text) : IniFile :=
  if file.has sectionName key then
    let (entries, sections) := file.mSections.index sectionName OrderedMap.empty
    ⟨sections.insert sectionName (entries.erase key)⟩
  else file

def clear (_ : IniFile) : IniFile := ⟨OrderedMap.empty⟩

inductive Call
  | set (sectionName key : Text) (value : Value)
  | get (sectionName key : Text)
  | has (sectionName key : Text)
  | remove (sectionName : Text)
  | removeKey (sectionName key : Text)
  | clear
deriving DecidableEq, Repr

/-- The file after a call. -/
def perform (file : IniFile) : Call → IniFile
  | .set sectionName key value => file.set sectionName key value
  | .get sectionName key => (file.get sectionName key).2
  | .has _ _ => file
  | .remove sectionName => file.remove sectionName
  | .removeKey sectionName key => file.removeKey sectionName key
  | .clear => file.clear

/-! ## Entries -/

/-- The entry under a section and a key. -/
def valueAt? (file : IniFile) (sectionName key : Text) : Option Value :=
  (file.mSections.find? sectionName).bind fun entries => entries.find? key

variable {file : IniFile} {sectionName key other otherKey : Text} {value : Value} {call : Call}

theorem has_eq : file.has sectionName key = (file.valueAt? sectionName key).isSome := by
  rw [has, valueAt?]
  cases file.mSections.find? sectionName <;> rfl

theorem get_fst : (file.get sectionName key).1 = (file.valueAt? sectionName key).getD ⟨[]⟩ := by
  rw [get, valueAt?]
  dsimp only
  rw [OrderedMap.index_fst, OrderedMap.index_fst]
  cases file.mSections.find? sectionName with
  | none => simp
  | some entries => rfl

/-- Nothing changes under a `get` of an entry that is there. -/
theorem get_snd (hentry : file.valueAt? sectionName key = some value) :
    (file.get sectionName key).2 = file := by
  obtain ⟨entries, hentries, hvalue⟩ := Option.bind_eq_some_iff.mp hentry
  rw [get, OrderedMap.index_of_find? hentries]
  dsimp only
  rw [OrderedMap.index_of_find? hvalue, OrderedMap.insert_self hentries]

theorem valueAt?_set : (file.set sectionName key value).valueAt? other otherKey =
    if other = sectionName ∧ otherKey = key then some value else file.valueAt? other otherKey := by
  rw [set, valueAt?]
  dsimp only
  rw [OrderedMap.insert_index, OrderedMap.find?_insert, OrderedMap.index_fst]
  by_cases hsection : other = sectionName
  · subst hsection
    rw [if_pos rfl, Option.bind_some, OrderedMap.find?_insert, valueAt?]
    cases file.mSections.find? other with
    | none => simp
    | some entries => simp
  · rw [if_neg hsection, if_neg fun hboth => hsection hboth.1, valueAt?]

theorem valueAt?_get_self : ((file.get sectionName key).2.valueAt? sectionName key).isSome := by
  rw [get, valueAt?]
  dsimp only
  rw [OrderedMap.find?_insert, if_pos rfl, Option.bind_some, OrderedMap.index]
  split
  next hfind => rw [hfind]; rfl
  · simp

theorem valueAt?_remove : (file.remove sectionName).valueAt? other otherKey =
    if other = sectionName then none else file.valueAt? other otherKey := by
  rw [remove]
  split
  next hnone =>
    split_ifs with heq
    · rw [heq, valueAt?, hnone]
      rfl
    · rfl
  · rw [valueAt?, OrderedMap.find?_erase]
    split_ifs with heq
    · rfl
    · rw [valueAt?]

theorem valueAt?_removeKey : (file.removeKey sectionName key).valueAt? other otherKey =
    if other = sectionName ∧ otherKey = key then none else file.valueAt? other otherKey := by
  rw [removeKey, has_eq]
  split_ifs with hpresent hboth hboth
  · rw [valueAt?]
    dsimp only
    rw [OrderedMap.insert_index, OrderedMap.find?_insert, hboth.1, hboth.2, if_pos rfl,
      Option.bind_some, OrderedMap.find?_erase, if_pos rfl]
  · rw [valueAt?]
    dsimp only
    rw [OrderedMap.insert_index, OrderedMap.find?_insert]
    by_cases hsection : other = sectionName
    · obtain ⟨stored, hstored⟩ := Option.isSome_iff_exists.mp hpresent
      obtain ⟨entries, hentries, -⟩ := Option.bind_eq_some_iff.mp hstored
      subst hsection
      rw [if_pos rfl, Option.bind_some, OrderedMap.find?_erase,
        if_neg fun heq => hboth ⟨rfl, heq⟩, OrderedMap.index_of_find? hentries, valueAt?, hentries]
      rfl
    · rw [if_neg hsection, valueAt?]
  · rw [hboth.1, hboth.2]
    exact Option.not_isSome_iff_eq_none.mp hpresent
  · rfl

/-! ## Loaded lines -/

variable {state : LoadState}

theorem valueAt?_openSection (name : Text) :
    valueAt? ⟨(state.openSection name).mSections⟩ sectionName key =
      if sectionName = name then none else valueAt? ⟨state.mSections⟩ sectionName key := by
  rw [valueAt?, LoadState.openSection, OrderedMap.find?_insert]
  split_ifs with hname
  · rfl
  · rw [valueAt?]

theorem valueAt?_assign (other value : Text) :
    valueAt? ⟨(state.assign other value).mSections⟩ sectionName key =
      if sectionName = state.current ∧ key = other then some ⟨value⟩
      else valueAt? ⟨state.mSections⟩ sectionName key := by
  rw [valueAt?, LoadState.assign, OrderedMap.find?_insert, valueAt?]
  by_cases hsection : sectionName = state.current
  · subst hsection
    rw [if_pos rfl, Option.bind_some, OrderedMap.find?_insert]
    cases state.mSections.find? state.current with
    | none => simp
    | some entries => simp
  · rw [if_neg hsection, if_neg fun hboth => hsection hboth.1]

/-! ## Histories -/

/-- The calls that take an entry away. -/
def Erases (sectionName key : Text) : Call → Prop
  | .remove other => other = sectionName
  | .removeKey other otherKey => other = sectionName ∧ otherKey = key
  | .clear => True
  | .set _ _ _ | .get _ _ | .has _ _ => False

/-- The entry was set, and not taken away since. -/
def SetSince (sectionName key : Text) (calls : List Call) : Prop :=
  ∃ before value after, calls = before ++ .set sectionName key value :: after ∧
    ∀ call ∈ after, ¬ Erases sectionName key call

/-- The entry was last set to `value`, and not taken away since. -/
def LastSet (sectionName key : Text) (value : Value) (calls : List Call) : Prop :=
  ∃ before after, calls = before ++ .set sectionName key value :: after ∧
    ∀ call ∈ after, ¬ Erases sectionName key call ∧ ∀ value', call ≠ .set sectionName key value'

variable {calls : List Call}

theorem setSince_concat : SetSince sectionName key (calls ++ [call]) ↔
    (∃ value, call = .set sectionName key value) ∨
      (SetSince sectionName key calls ∧ ¬ Erases sectionName key call) := by
  constructor
  · rintro ⟨before, value, after, heq, hkept⟩
    rcases concat_eq_append_cons heq with ⟨rfl, hcall⟩ | ⟨after, rfl, rfl⟩
    · exact .inl ⟨value, hcall⟩
    · refine .inr ⟨⟨before, value, after, rfl, fun c hmem => ?_⟩, ?_⟩
      · exact hkept c (List.mem_append_left _ hmem)
      · exact hkept call (List.mem_append_right _ (List.mem_singleton_self call))
  · rintro (⟨value, rfl⟩ | ⟨⟨before, value, after, rfl, hkept⟩, hlast⟩)
    · exact ⟨calls, value, [], rfl, fun _ hmem => absurd hmem List.not_mem_nil⟩
    · refine ⟨before, value, after ++ [call], by simp, ?_⟩
      intro c hmem
      rcases List.mem_append.mp hmem with hold | hnew
      · exact hkept c hold
      · rwa [List.mem_singleton.mp hnew]

theorem lastSet_concat : LastSet sectionName key value (calls ++ [call]) ↔
    call = .set sectionName key value ∨
      (LastSet sectionName key value calls ∧ ¬ Erases sectionName key call ∧
        ∀ value', call ≠ .set sectionName key value') := by
  constructor
  · rintro ⟨before, after, heq, hkept⟩
    rcases concat_eq_append_cons heq with ⟨rfl, hcall⟩ | ⟨after, rfl, rfl⟩
    · exact .inl hcall
    · refine .inr ⟨⟨before, after, rfl, fun c hmem => ?_⟩, ?_⟩
      · exact hkept c (List.mem_append_left _ hmem)
      · exact hkept call (List.mem_append_right _ (List.mem_singleton_self call))
  · rintro (rfl | ⟨⟨before, after, rfl, hkept⟩, hlast⟩)
    · exact ⟨calls, [], rfl, fun _ hmem => absurd hmem List.not_mem_nil⟩
    · refine ⟨before, after ++ [call], by simp, ?_⟩
      intro c hmem
      rcases List.mem_append.mp hmem with hold | hnew
      · exact hkept c hold
      · rwa [List.mem_singleton.mp hnew]

/-! ## Runs -/

/-- Any calls on an empty `IniFile`, with the calls made so far. -/
def accesses : TransitionSystem (IniFile × List Call) Call where
  initial state := state = (fresh, [])
  step state call := some (state.1.perform call, state.2 ++ [call])

/-- The file is the map its history says. -/
def Maps (state : IniFile × List Call) : Prop :=
  ∀ sectionName key, (state.1.has sectionName key = true ↔ SetSince sectionName key state.2) ∧
    ∀ value, LastSet sectionName key value state.2 → (state.1.get sectionName key).1 = value

/-- A `get` of an entry that is not there. -/
def GetsMissing (state : IniFile × List Call) (call : Call) : Prop :=
  ∃ sectionName key, call = .get sectionName key ∧ state.1.has sectionName key = false

/-- The entries are those that were set last. -/
def Recorded (state : IniFile × List Call) : Prop :=
  ∀ sectionName key, ((state.1.valueAt? sectionName key).isSome ↔ SetSince sectionName key state.2) ∧
    ∀ value, LastSet sectionName key value state.2 → state.1.valueAt? sectionName key = some value

variable {state state' : IniFile × List Call}

theorem Recorded.maps (hrecorded : Recorded state) : Maps state := by
  intro sectionName key
  refine ⟨?_, fun value hlast => ?_⟩
  · rw [has_eq]
    exact (hrecorded sectionName key).1
  · rw [get_fst, (hrecorded sectionName key).2 value hlast]
    rfl

theorem not_setSince_nil : ¬ SetSince sectionName key [] := by
  rintro ⟨before, value, after, heq, -⟩
  exact absurd heq.symm (by simp)

theorem recorded_fresh : Recorded (fresh, []) := by
  intro sectionName key
  refine ⟨iff_of_false ?_ not_setSince_nil, ?_⟩
  · simp [valueAt?, fresh]
  · rintro value ⟨before, after, heq, -⟩
    exact absurd heq.symm (by simp)

/-- A call that leaves an entry alone, and does not set it or take it away. -/
theorem recorded_of_same {entry entry' : Option Value} (hsame : entry' = entry)
    (hset : ∀ value, call ≠ .set sectionName key value) (herases : ¬ Erases sectionName key call)
    (hrecorded : (entry.isSome ↔ SetSince sectionName key calls) ∧
      ∀ value, LastSet sectionName key value calls → entry = some value) :
    (entry'.isSome ↔ SetSince sectionName key (calls ++ [call])) ∧
      ∀ value, LastSet sectionName key value (calls ++ [call]) → entry' = some value := by
  subst hsame
  rw [setSince_concat]
  refine ⟨?_, fun value hlast => ?_⟩
  · rw [hrecorded.1]
    constructor
    · exact fun hsince => .inr ⟨hsince, herases⟩
    · rintro (⟨value, heq⟩ | ⟨hsince, -⟩)
      · exact absurd heq (hset value)
      · exact hsince
  · rcases lastSet_concat.mp hlast with heq | ⟨hold, -⟩
    · exact absurd heq (hset value)
    · exact hrecorded.2 value hold

/-- A call that takes an entry away. -/
theorem recorded_of_erases {entry : Option Value} (hnone : entry = none)
    (hset : ∀ value, call ≠ .set sectionName key value) (herases : Erases sectionName key call) :
    (entry.isSome ↔ SetSince sectionName key (calls ++ [call])) ∧
      ∀ value, LastSet sectionName key value (calls ++ [call]) → entry = some value := by
  rw [setSince_concat, hnone]
  refine ⟨iff_of_false (by simp) ?_, fun value hlast => ?_⟩
  · rintro (⟨value, heq⟩ | ⟨-, hkept⟩)
    · exact hset value heq
    · exact hkept herases
  · rcases lastSet_concat.mp hlast with heq | ⟨-, hkept, -⟩
    · exact absurd heq (hset value)
    · exact absurd herases hkept

theorem Recorded.set (hrecorded : Recorded state) (sectionName key : Text) (value : Value) :
    Recorded (state.1.set sectionName key value, state.2 ++ [.set sectionName key value]) := by
  intro other otherKey
  have hentry : (state.1.set sectionName key value).valueAt? other otherKey =
      if other = sectionName ∧ otherKey = key then some value else state.1.valueAt? other otherKey :=
    valueAt?_set
  by_cases hsame : other = sectionName ∧ otherKey = key
  · obtain ⟨rfl, rfl⟩ := hsame
    rw [if_pos ⟨rfl, rfl⟩] at hentry
    rw [setSince_concat, hentry]
    refine ⟨iff_of_true rfl (.inl ⟨value, rfl⟩), fun value' hlast => ?_⟩
    rcases lastSet_concat.mp hlast with heq | ⟨-, -, hne⟩
    · rw [(Call.set.inj heq).2.2]
    · exact absurd rfl (hne value)
  · rw [if_neg hsame] at hentry
    exact recorded_of_same hentry (fun value' heq => hsame ⟨(Call.set.inj heq).1.symm,
      (Call.set.inj heq).2.1.symm⟩) id (hrecorded other otherKey)

theorem Recorded.remove (hrecorded : Recorded state) (sectionName : Text) :
    Recorded (state.1.remove sectionName, state.2 ++ [.remove sectionName]) := by
  intro other otherKey
  have hentry : (state.1.remove sectionName).valueAt? other otherKey =
      if other = sectionName then none else state.1.valueAt? other otherKey := valueAt?_remove
  by_cases hsame : other = sectionName
  · rw [if_pos hsame] at hentry
    exact recorded_of_erases hentry (fun _ heq => by cases heq) hsame.symm
  · rw [if_neg hsame] at hentry
    exact recorded_of_same hentry (fun _ heq => by cases heq) (Ne.symm hsame)
      (hrecorded other otherKey)

theorem Recorded.removeKey (hrecorded : Recorded state) (sectionName key : Text) :
    Recorded (state.1.removeKey sectionName key, state.2 ++ [.removeKey sectionName key]) := by
  intro other otherKey
  have hentry : (state.1.removeKey sectionName key).valueAt? other otherKey =
      if other = sectionName ∧ otherKey = key then none else state.1.valueAt? other otherKey :=
    valueAt?_removeKey
  by_cases hsame : other = sectionName ∧ otherKey = key
  · rw [if_pos hsame] at hentry
    exact recorded_of_erases hentry (fun _ heq => by cases heq) ⟨hsame.1.symm, hsame.2.symm⟩
  · rw [if_neg hsame] at hentry
    exact recorded_of_same hentry (fun _ heq => by cases heq)
      (fun herases => hsame ⟨herases.1.symm, herases.2.symm⟩) (hrecorded other otherKey)

theorem Recorded.step (hrecorded : Recorded state) (hpresent : ¬ GetsMissing state call) :
    Recorded (state.1.perform call, state.2 ++ [call]) := by
  cases call with
  | set sectionName key value => exact hrecorded.set sectionName key value
  | get sectionName key =>
      have hhas : state.1.has sectionName key = true := by
        by_contra habsent
        exact hpresent ⟨sectionName, key, rfl, Bool.eq_false_iff.mpr habsent⟩
      rw [has_eq] at hhas
      obtain ⟨value, hvalue⟩ := Option.isSome_iff_exists.mp hhas
      have hsame : state.1.perform (.get sectionName key) = state.1 := get_snd hvalue
      rw [hsame]
      exact fun other otherKey => recorded_of_same rfl (fun _ heq => by cases heq) id
        (hrecorded other otherKey)
  | has sectionName key =>
      exact fun other otherKey => recorded_of_same rfl (fun _ heq => by cases heq) id
        (hrecorded other otherKey)
  | remove sectionName => exact hrecorded.remove sectionName
  | removeKey sectionName key => exact hrecorded.removeKey sectionName key
  | clear =>
      intro other otherKey
      exact recorded_of_erases (by simp [perform, IniFile.clear, valueAt?]) (fun _ heq => by cases heq)
        trivial

/-- A `get` of a missing entry creates it. -/
theorem Recorded.not_maps (hrecorded : Recorded state) (hmissing : GetsMissing state call) :
    ¬ Maps (state.1.perform call, state.2 ++ [call]) := by
  obtain ⟨sectionName, key, rfl, habsent⟩ := hmissing
  intro hmaps
  have hcreated : (state.1.perform (.get sectionName key)).has sectionName key = true := by
    rw [has_eq]
    exact valueAt?_get_self
  rcases setSince_concat.mp ((hmaps sectionName key).1.mp hcreated) with ⟨value, heq⟩ | ⟨hsince, -⟩
  · cases heq
  · rw [has_eq] at habsent
    exact absurd ((hrecorded sectionName key).1.mpr hsince) (by simp [habsent])

/-- The file is the map its history says, and queries do not change what is printed,
exactly if each `get` finds its entry. -/
theorem maps_iff {visited : List ((IniFile × List Call) × Call)} (hrun : accesses.Run visited state) :
    (((∀ before ∈ visited, Maps before.1) ∧ Maps state) ∧
      ∀ taken ∈ visited, ∀ sectionName key,
        taken.2 = .get sectionName key ∨ taken.2 = .has sectionName key →
          (taken.1.1.perform taken.2).str = taken.1.1.str) ↔
    ∀ taken ∈ visited, ∀ sectionName key, taken.2 = .get sectionName key →
      taken.1.1.has sectionName key = true := by
  have hiff : ((∀ before ∈ visited, Maps before.1) ∧ Maps state) ↔
      ∀ taken ∈ visited, ¬ GetsMissing taken.1 taken.2 := by
    apply hrun.forall_iff (Q := Recorded)
    · exact fun _ => Recorded.maps
    · rintro _ rfl
      exact recorded_fresh
    · intro state call state' hrecorded hstep hpresent
      obtain rfl := Option.some.inj hstep
      exact hrecorded.step hpresent
    · intro state call state' hrecorded hstep hmissing
      obtain rfl := Option.some.inj hstep
      exact hrecorded.not_maps hmissing
  constructor
  · intro hall taken hmem sectionName key hget
    by_contra habsent
    exact hiff.mp hall.1 taken hmem ⟨sectionName, key, hget, Bool.eq_false_iff.mpr habsent⟩
  · intro hpresent
    refine ⟨hiff.mpr ?_, ?_⟩
    · rintro taken hmem ⟨sectionName, key, hget, habsent⟩
      exact absurd (hpresent taken hmem sectionName key hget) (by simp [habsent])
    · rintro taken hmem sectionName key (hget | hhas)
      · have hthere := hpresent taken hmem sectionName key hget
        rw [has_eq] at hthere
        obtain ⟨value, hvalue⟩ := Option.isSome_iff_exists.mp hthere
        rw [hget]
        exact congrArg str (get_snd hvalue)
      · rw [hhas]
        rfl

/-- `set`, then `get` of the same entry. -/
theorem maps_set_get : Maps ((fresh.set ['s'] ['k'] ⟨['v']⟩).perform (.get ['s'] ['k']),
    [.set ['s'] ['k'] ⟨['v']⟩, .get ['s'] ['k']]) := by
  have hinitial : accesses.Run [] (fresh, []) := .initial rfl
  have hset := hinitial.step (a := .set ['s'] ['k'] ⟨['v']⟩) rfl
  have hget := hset.step (a := .get ['s'] ['k']) rfl
  refine ((maps_iff hget).mpr ?_).1.2
  intro taken hmem sectionName key hcall
  rcases List.mem_append.mp hmem with hold | hlast
  · obtain rfl := List.mem_singleton.mp hold
    cases hcall
  · obtain rfl := List.mem_singleton.mp hlast
    cases hcall
    decide

/-- `get` in an empty file. -/
theorem get_creates : ¬ Maps (fresh.perform (.get ['s'] ['k']), [.get ['s'] ['k']]) ∧
    (fresh.perform (.get ['s'] ['k'])).str ≠ fresh.str := by
  refine ⟨fun hmaps => ?_, by decide⟩
  obtain ⟨before, value, after, heq, -⟩ := (hmaps ['s'] ['k']).1.mp (by decide)
  rcases before with _ | ⟨first, before⟩
  · cases heq
  · simp at heq

/-! ## Saving and loading what was set -/

/-- `set` of a section, a key and a value, one after another. -/
def setAll (entries : List (Text × Text × Value)) : IniFile :=
  entries.foldl (fun file entry => file.set entry.1 entry.2.1 entry.2.2) fresh

/-- The text fits into a string, and no line of it has a separator that an `int`
cannot point at. -/
def TextFits (text : Text) : Prop :=
  text.length < maxSize ∧ ∀ line ∈ lines text, SeparatorFits (trim line)

/-- What was set is loaded again if it can be printed on lines of its own.  Where the
separators are within reach of an `int`, it is loaded again in no other case. -/
theorem load_str_setAll_iff (entries : List (Text × Text × Value)) :
    (Printable (setAll entries).mSections →
      load fresh (setAll entries).str = .ok (setAll entries)) ∧
    (TextFits (setAll entries).str →
      (load fresh (setAll entries).str = .ok (setAll entries) ↔
        Printable (setAll entries).mSections)) := by
  have hprinted := load_str_of_printable (setAll entries)
  refine ⟨hprinted, fun hfits => ⟨fun hload => ?_, hprinted⟩⟩
  obtain ⟨state, hrun, hprintable⟩ := foldlM_loadLine_printable (lines (setAll entries).str)
    ⟨[], OrderedMap.empty⟩
    (fun line hline => ⟨(of_mem_lines hline).1, (of_mem_lines hline).2.trans_lt hfits.1⟩) hfits.2
    ⟨trimmedBy_nil, by simp, by simp, by decide⟩ printable_empty
  have hstate : load fresh (setAll entries).str = .ok ⟨state.mSections⟩ := by
    rw [load]
    change ((lines (setAll entries).str).foldlM loadLine ⟨[], OrderedMap.empty⟩ >>= _) = _
    rw [hrun]
    rfl
  rw [hload, Except.ok.injEq] at hstate
  rw [hstate]
  exact hprintable

/-- The `timeout` of a section, and an entry under no section. -/
theorem load_str_setAll_timeout :
    load fresh (setAll [(['s'], ['t'], ⟨['1', '2']⟩), ([], ['k'], ⟨[]⟩)]).str =
      .ok (setAll [(['s'], ['t'], ⟨['1', '2']⟩), ([], ['k'], ⟨[]⟩)]) := by
  have hprintable : Printable
      (setAll [(['s'], ['t'], ⟨['1', '2']⟩), ([], ['k'], ⟨[]⟩)]).mSections := by
    rw [printable_iff]
    decide
  exact (load_str_setAll_iff _).1 hprintable

/-- A value of two lines, the second of which is a header. -/
theorem load_str_setAll_forged :
    ¬ load fresh (setAll [(['s'], ['k'], ⟨['v', '\n', '[', 'a', ']']⟩)]).str =
      .ok (setAll [(['s'], ['k'], ⟨['v', '\n', '[', 'a', ']']⟩)]) := by
  intro hload
  have hnames : ((load fresh (setAll [(['s'], ['k'], ⟨['v', '\n', '[', 'a', ']']⟩)]).str).map
      fun file => file.mSections.entries.map Prod.fst) = .ok [['a'], ['s']] := by decide
  rw [hload] at hnames
  exact absurd hnames (by decide)

end IniFile

end CppProjects
