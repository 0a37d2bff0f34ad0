import CppProjects.Core.LastEntry
import CppProjects.Ini.IniCalls

/-!
# Assignments under repeated headers

What the lines of a text say, read one by one, against what `load` keeps of them.
A header empties the section it names, and a line without a sign is stored as a
key with itself as the value.
-/

namespace CppProjects

namespace IniFile

/-! ## What a line says -/

inductive Line
  | blank
  | header (name : Text)
  | assignment (key value : Text)
  /-- Neither a header nor an assignment. -/
  | word (text : Text)
deriving DecidableEq, Repr

/-- The name of a header stands in front of its first bracket, the key of an
assignment in front of its first sign. -/
def readLine (line : Text) : Line :=
  match trim line with
  | [] => .blank
  | c :: rest =>
      if c = '[' then .header (trim (rest.takeWhile (· ≠ ']')))
      else if '=' ∈ c :: rest then
        .assignment (trim ((c :: rest).takeWhile (· ≠ '=')))
          (trim ((c :: rest).dropWhile (· ≠ '=')).tail)
      else .word (c :: rest)

def readLines (text : Text) : List Line := (lines text).map readLine

/-- The section of a line, from the lines in front of it. -/
def sectionOf (before : List Line) : Text :=
  before.foldl (fun current line => match line with | .header name => name | _ => current) []

/-- A line under the section assigns the key. -/
def Assigns (sectionName key : Text) (before : List Line) (line : Line) : Prop :=
  sectionOf before = sectionName ∧ ∃ value, line = .assignment key value

/-- A line under the section assigns the key, or consists of it. -/
def Mentions (sectionName key : Text) (before : List Line) (line : Line) : Prop :=
  sectionOf before = sectionName ∧ ((∃ value, line = .assignment key value) ∨ line = .word key)

/-- Behind such a line, what `load` has stored for the key is replaced or gone. -/
def Replaces (sectionName key : Text) (before : List Line) (line : Line) : Prop :=
  Mentions sectionName key before line ∨ line = .header sectionName

/-! ## Loading a line -/

/-- The separator of the line, if it has one, stands where an `int` can point. -/
def InReach : Text → Prop
  | [] => True
  | c :: rest =>
      if c = '[' then ']' ∈ rest → findFirstOf ']' (c :: rest) < 2 ^ 31
      else '=' ∈ c :: rest → findFirstOf '=' (c :: rest) + 1 < 2 ^ 31

instance : (line : Text) → Decidable (InReach line)
  | [] => inferInstanceAs (Decidable True)
  | c :: _ => inferInstanceAs (Decidable (if c = '[' then _ → _ else _ → _))

/-- What a line does to the map. -/
def LoadState.follow (state : LoadState) : Line → LoadState
  | .blank => state
  | .header name => state.openSection name
  | .assignment key value => state.assign key value
  | .word text => state.assign text text

variable {state : LoadState} {line : Text}

theorem takeWhile_of_split {c : Char} {before after : Text} (hbefore : c ∉ before) :
    (before ++ c :: after).takeWhile (· ≠ c) = before := by
  rw [List.takeWhile_append_of_pos fun d hd => by simpa using fun heq : d = c => hbefore (heq ▸ hd)]
  simp

theorem dropWhile_of_split {c : Char} {before after : Text} (hbefore : c ∉ before) :
    (before ++ c :: after).dropWhile (· ≠ c) = c :: after := by
  rw [List.dropWhile_append_of_pos fun d hd => by simpa using fun heq : d = c => hbefore (heq ▸ hd)]
  simp

theorem takeWhile_of_notMem {c : Char} {text : Text} (hmem : c ∉ text) :
    text.takeWhile (· ≠ c) = text :=
  List.takeWhile_eq_self_iff.mpr fun d hd => by simpa using fun heq : d = c => hmem (heq ▸ hd)

/-- A line is loaded as it is read. -/
theorem loadLine_eq (hlength : line.length < maxSize) (hreach : InReach (trim line)) :
    loadLine state line = .ok (state.follow (readLine line)) := by
  have hsize : (trim line).length < maxSize := (length_trimBy_le line).trans_lt hlength
  rw [loadLine, readLine]
  cases htrim : trim line with
  | nil => rfl
  | cons c rest =>
      rw [htrim] at hreach hsize
      have hbound : (c :: rest).length < 2 ^ 63 := hsize.trans (by decide)
      by_cases hheader : c = '['
      · subst hheader
        simp only [InReach, if_true] at hreach ⊢
        by_cases hbracket : ']' ∈ rest
        · have hfits := hreach hbracket
          obtain ⟨name, after, rfl, hname⟩ := exists_split hbracket
          rw [takeWhile_of_split hname]
          have hfind : findFirstOf ']' ('[' :: (name ++ ']' :: after)) = name.length + 1 :=
            findFirstOf_append ('[' :: name) after (by simpa using hname)
          rw [hfind] at hfits
          exact loadHeader_closed state name after hname hfits
        · rw [takeWhile_of_notMem hbracket]
          rw [List.length_cons] at hbound
          exact loadHeader_open state rest hbracket (by omega)
      · simp only [InReach, if_neg hheader] at hreach ⊢
        by_cases hseparator : '=' ∈ c :: rest
        · have hfits := hreach hseparator
          rw [if_pos hseparator]
          obtain ⟨key, value, hsplit, hkey⟩ := exists_split hseparator
          rw [hsplit] at hbound hfits ⊢
          rw [findFirstOf_append key value hkey] at hfits
          rw [takeWhile_of_split hkey, dropWhile_of_split hkey]
          exact loadAssignment_split state key value hkey hfits hbound
        · rw [if_neg hseparator]
          have hmissing := loadAssignment_missing state (c :: rest) hseparator hbound
          have hself : trim (c :: rest) = c :: rest := by
            rw [← htrim]
            exact trimBy_of_trimmed (trimmedBy_trimBy line)
          rw [hself] at hmissing
          exact hmissing

theorem foldlM_loadLine (texts : List Text) (state : LoadState)
    (hlength : ∀ line ∈ texts, line.length < maxSize) (hreach : ∀ line ∈ texts, InReach (trim line)) :
    texts.foldlM loadLine state = .ok ((texts.map readLine).foldl LoadState.follow state) := by
  induction texts generalizing state with
  | nil => rfl
  | cons line texts ih =>
      rw [List.foldlM_cons, loadLine_eq (hlength line (by simp)) (hreach line (by simp)), ok_bind,
        ih _ (fun other hother => hlength other (by simp [hother]))
          (fun other hother => hreach other (by simp [hother]))]
      rfl

/-! ## What is stored -/

variable {before : List Line} {last entry : Line} {sectionName key : Text}

theorem sectionOf_concat (before : List Line) (line : Line) : sectionOf (before ++ [line]) =
    match line with | .header name => name | _ => sectionOf before := by
  rw [sectionOf, List.foldl_append]
  rfl

/-- The map after the lines, and the section they end in. -/
def loaded (read : List Line) : LoadState := read.foldl LoadState.follow ⟨[], OrderedMap.empty⟩

theorem loaded_concat (before : List Line) (line : Line) :
    loaded (before ++ [line]) = (loaded before).follow line := by
  rw [loaded, List.foldl_append]
  rfl

theorem current_loaded (read : List Line) : (loaded read).current = sectionOf read := by
  induction read using List.reverseRecOn with
  | nil => rfl
  | append_singleton before line ih =>
      rw [loaded_concat, sectionOf_concat]
      cases line with
      | header name => rfl
      | blank => exact ih
      | assignment key value => exact ih
      | word text => exact ih

/-- The value that a line gives to the key it mentions. -/
def Line.value : Line → Text
  | .assignment _ value => value
  | .word text => text
  | .blank | .header _ => []

/-- An assignment, or a word that is read as one. -/
theorem valueAt?_loaded_assign (read : List Line) (other value : Text) :
    valueAt? ⟨((loaded read).assign other value).mSections⟩ sectionName key =
      if sectionOf read = sectionName ∧ key = other then some ⟨value⟩
      else valueAt? ⟨(loaded read).mSections⟩ sectionName key := by
  rw [valueAt?_assign, current_loaded]
  exact if_congr (and_congr_left fun _ => eq_comm) rfl rfl

/-- The last mention of a key, with no header of its section behind it, has set the
entry. -/
theorem valueAt?_loaded (read : List Line) (stored : Value) :
    valueAt? ⟨(loaded read).mSections⟩ sectionName key = some stored ↔
      ∃ line, LastOf (Mentions sectionName key) (Replaces sectionName key) read line ∧
        stored = ⟨line.value⟩ := by
  induction read using List.reverseRecOn with
  | nil =>
      refine iff_of_false (by simp [loaded, valueAt?]) ?_
      rintro ⟨line, hlast, -⟩
      exact not_lastOf_nil hlast
  | append_singleton read last ih =>
      -- a line that does not concern the entry, and one that sets it
      have hkept : ¬ Replaces sectionName key read last →
          ((∃ line, LastOf (Mentions sectionName key) (Replaces sectionName key) (read ++ [last])
            line ∧ stored = ⟨line.value⟩) ↔
          valueAt? ⟨(loaded read).mSections⟩ sectionName key = some stored) := by
        intro hnot
        rw [ih]
        refine exists_congr fun line => and_congr_left fun _ => ?_
        rw [lastOf_concat, or_iff_right fun hnew => hnot (.inl hnew.2), and_iff_left hnot]
      have hset : Mentions sectionName key read last →
          ((∃ line, LastOf (Mentions sectionName key) (Replaces sectionName key) (read ++ [last])
            line ∧ stored = ⟨line.value⟩) ↔ some ⟨last.value⟩ = some stored) := by
        intro hmentions
        rw [Option.some.injEq, eq_comm (b := stored)]
        constructor
        · rintro ⟨line, hlast, rfl⟩
          rcases lastOf_concat.mp hlast with ⟨rfl, -⟩ | ⟨-, hnot⟩
          · rfl
          · exact absurd (.inl hmentions) hnot
        · exact fun heq => ⟨last, lastOf_concat.mpr (.inl ⟨rfl, hmentions⟩), heq⟩
      rw [loaded_concat]
      cases last with
      | blank =>
          rw [hkept (by simp [Replaces, Mentions])]
          rfl
      | header name =>
          rw [LoadState.follow, valueAt?_openSection]
          split_ifs with hname
          · refine iff_of_false (by simp) ?_
            rintro ⟨line, hlast, -⟩
            rcases lastOf_concat.mp hlast with ⟨-, hmentions⟩ | ⟨-, hnot⟩
            · simp [Mentions] at hmentions
            · exact hnot (.inr (congrArg Line.header hname.symm))
          · exact (hkept (by simp [Replaces, Mentions, Ne.symm hname])).symm
      | assignment other value =>
          rw [LoadState.follow, valueAt?_loaded_assign]
          split_ifs with hsame
          · exact (hset ⟨hsame.1, .inl ⟨value, by rw [hsame.2]⟩⟩).symm
          · refine (hkept ?_).symm
            rintro (⟨hsection, ⟨value', heq⟩ | heq⟩ | heq)
            · exact hsame ⟨hsection, (Line.assignment.inj heq).1.symm⟩
            · cases heq
            · cases heq
      | word text =>
          rw [LoadState.follow, valueAt?_loaded_assign]
          split_ifs with hsame
          · exact (hset ⟨hsame.1, .inr (by rw [hsame.2])⟩).symm
          · refine (hkept ?_).symm
            rintro (⟨hsection, ⟨value', heq⟩ | heq⟩ | heq)
            · cases heq
            · exact hsame ⟨hsection, (Line.word.inj heq).symm⟩
            · cases heq

/-! ## When every assignment is kept -/

/-- `has` and `get` tell which keys are assigned under a section, and to what. -/
def Keeps (file : IniFile) (read : List Line) (sectionName key : Text) : Prop :=
  (file.has sectionName key = true ↔ ∃ line, Occurs (Assigns sectionName key) read line) ∧
    ∀ value, LastOf (Assigns sectionName key) (Assigns sectionName key) read
      (.assignment key value) → (file.get sectionName key).1 = ⟨value⟩

/-- A key that is assigned under the section is mentioned behind the section's last
header, and if the last such line is no assignment, the last assignment has the key
for its value. -/
def Undisturbed (read : List Line) (sectionName key : Text) : Prop :=
  ((∃ line, Occurs (Assigns sectionName key) read line) →
    ∃ line, LastOf (Mentions sectionName key) (Replaces sectionName key) read line) ∧
  (LastOf (Mentions sectionName key) (Replaces sectionName key) read (.word key) →
    LastOf (Assigns sectionName key) (Assigns sectionName key) read (.assignment key key))

variable {read : List Line} {value : Text}

/-- What is mentioned last is an assignment or the key itself. -/
theorem assigns_or_word_of_lastOf
    (hlast : LastOf (Mentions sectionName key) (Replaces sectionName key) read entry) :
    (∃ value, entry = .assignment key value ∧
      LastOf (Assigns sectionName key) (Assigns sectionName key) read entry) ∨ entry = .word key := by
  have hentry := hlast.occurs
  obtain ⟨before, -, -, -, hkind⟩ := hentry
  rcases hkind with ⟨value, rfl⟩ | rfl
  · refine .inl ⟨value, rfl, hlast.weaken (fun before hmentions => ⟨hmentions.1, value, rfl⟩) ?_⟩
    exact fun before later hassigns => .inl ⟨hassigns.1, .inl hassigns.2⟩
  · exact .inr rfl

/-- The last assignment of a key. -/
theorem exists_lastOf_assigns (hoccurs : Occurs (Assigns sectionName key) read entry) :
    ∃ value, LastOf (Assigns sectionName key) (Assigns sectionName key) read
      (.assignment key value) := by
  obtain ⟨last, hlast⟩ := hoccurs.exists_lastOf
  obtain ⟨before, after, -, -, value, rfl⟩ := hlast.occurs
  exact ⟨value, hlast⟩

theorem keeps_loaded_iff (read : List Line) (sectionName key : Text) :
    Keeps ⟨(loaded read).mSections⟩ read sectionName key ↔ Undisturbed read sectionName key := by
  have hstored := fun value => @valueAt?_loaded sectionName key read value
  rw [Keeps, has_eq, get_fst]
  constructor
  · rintro ⟨hhas, hget⟩
    constructor
    · intro hassigned
      obtain ⟨stored, hvalue⟩ := Option.isSome_iff_exists.mp (hhas.mpr hassigned)
      obtain ⟨line, hline, -⟩ := (hstored stored).mp hvalue
      exact ⟨line, hline⟩
    · intro hword
      have hvalue := (hstored ⟨key⟩).mpr ⟨.word key, hword, rfl⟩
      obtain ⟨line, hline⟩ := hhas.mp (by rw [hvalue]; rfl)
      obtain ⟨value, hlast⟩ := exists_lastOf_assigns hline
      have hsame := hget value hlast
      rw [hvalue] at hsame
      obtain rfl : key = value := congrArg Value.mValue hsame
      exact hlast
  · rintro ⟨hassigned, hword⟩
    constructor
    · constructor
      · intro hsome
        obtain ⟨stored, hvalue⟩ := Option.isSome_iff_exists.mp hsome
        obtain ⟨line, hline, -⟩ := (hstored stored).mp hvalue
        rcases assigns_or_word_of_lastOf hline with ⟨value, rfl, hlast⟩ | rfl
        · exact ⟨_, hlast.occurs⟩
        · exact ⟨_, (hword hline).occurs⟩
      · intro hoccurs
        obtain ⟨line, hline⟩ := hassigned hoccurs
        rw [(hstored ⟨line.value⟩).mpr ⟨line, hline, rfl⟩]
        rfl
    · intro value hlast
      obtain ⟨line, hline⟩ := hassigned ⟨_, hlast.occurs⟩
      rw [(hstored ⟨line.value⟩).mpr ⟨line, hline, rfl⟩]
      rcases assigns_or_word_of_lastOf hline with ⟨value', rfl, hlast'⟩ | rfl
      · rw [(Line.assignment.inj (hlast.unique (fun _ _ => id) hlast')).2]
        rfl
      · rw [(Line.assignment.inj (hlast.unique (fun _ _ => id) (hword hline))).2]
        rfl

/-- An assignment under a section is found after `load` exactly if nothing behind it
disturbs it. -/
theorem load_keeps_iff (text : Text) (hsize : text.length < maxSize)
    (hreach : ∀ line ∈ lines text, InReach (trim line)) (sectionName key : Text) :
    (∃ file, load fresh text = .ok file ∧ Keeps file (readLines text) sectionName key) ↔
      Undisturbed (readLines text) sectionName key := by
  have hload : load fresh text = .ok ⟨(loaded (readLines text)).mSections⟩ := by
    have hlength : ∀ line ∈ lines text, line.length < maxSize :=
      fun line hline => (of_mem_lines hline).2.trans_lt hsize
    rw [load]
    change ((lines text).foldlM loadLine ⟨[], OrderedMap.empty⟩ >>= _) = _
    rw [foldlM_loadLine (lines text) _ hlength hreach]
    rfl
  rw [← keeps_loaded_iff, hload]
  constructor
  · rintro ⟨file, hfile, hkeeps⟩
    rwa [Except.ok.inj hfile]
  · exact fun hkeeps => ⟨_, rfl, hkeeps⟩

/-- A section that is continued under a second header, where the key is set again. -/
theorem load_keeps_iff_reopened :
    ∃ file, load fresh "[s]\nk = 1\n[t]\nk = 2\n[s]\nk = 3\n".toList = .ok file ∧
      Keeps file (readLines "[s]\nk = 1\n[t]\nk = 2\n[s]\nk = 3\n".toList) ['s'] ['k'] := by
  refine (load_keeps_iff _ (by decide) (by decide) ['s'] ['k']).mpr ?_
  have hlast : LastOf (Mentions ['s'] ['k']) (Replaces ['s'] ['k'])
      (readLines "[s]\nk = 1\n[t]\nk = 2\n[s]\nk = 3\n".toList) (.assignment ['k'] ['3']) :=
    ⟨[.header ['s'], .assignment ['k'] ['1'], .header ['t'], .assignment ['k'] ['2'], .header ['s']],
      [], by decide, ⟨by decide, .inl ⟨['3'], rfl⟩⟩, fun _ _ _ heq => absurd heq.symm (by simp)⟩
  refine ⟨fun _ => ⟨_, hlast⟩, fun hword => ?_⟩
  cases hlast.unique (fun _ _ => .inl) hword

/-- The second header empties the section. -/
theorem load_forgets_reopened :
    ¬ ∃ file, load fresh "[s]\nk = 1\n[s]\n".toList = .ok file ∧
      Keeps file (readLines "[s]\nk = 1\n[s]\n".toList) ['s'] ['k'] := by
  rintro ⟨file, hload, hkeeps⟩
  have habsent : (load fresh "[s]\nk = 1\n[s]\n".toList).map
      (fun file => file.has ['s'] ['k']) = .ok false := by decide
  rw [hload] at habsent
  have hassigned : Occurs (Assigns ['s'] ['k']) (readLines "[s]\nk = 1\n[s]\n".toList)
      (.assignment ['k'] ['1']) :=
    ⟨[.header ['s']], [.header ['s']], by decide, by decide, ['1'], rfl⟩
  have hhas := hkeeps.1.mpr ⟨_, hassigned⟩
  exact absurd (hhas.symm.trans (Except.ok.inj habsent)) (by decide)

end IniFile

end CppProjects
