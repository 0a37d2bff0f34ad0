import CppProjects.Ini.IniFile

/-!
# Loading what was printed

Everything `load` stores can be printed and found again: names contain no `]`,
keys contain no `=` and do not start like a header, and everything is trimmed
and on one line.  Printing and loading such a map gives it back.  The one
obstacle is the width of `int`: a separator at position `2^31` or beyond is not
found where it stands.
-/

namespace CppProjects.IniFile

open CInt

/-! ## Lines -/

theorem lines_append_newline (line rest : Text) (hline : '\n' ∉ line) :
    lines (line ++ '\n' :: rest) = line :: lines rest := by
  induction line with
  | nil => simp [lines]
  | cons c line ih =>
      simp only [List.mem_cons, not_or] at hline
      rw [List.cons_append, lines, if_neg (Ne.symm hline.1), ih hline.2]

theorem lines_unlines (printed : List Text) (hprinted : ∀ line ∈ printed, '\n' ∉ line) :
    lines (unlines printed) = printed := by
  induction printed with
  | nil => rfl
  | cons line printed ih =>
      have hrest := ih fun other hother => hprinted other (by simp [hother])
      rw [unlines, List.flatMap_cons, List.append_assoc, List.singleton_append,
        lines_append_newline line _ (hprinted line (by simp))]
      exact congrArg (line :: ·) hrest

/-- A delivered line is part of the text and holds no terminator. -/
theorem of_mem_lines {text line : Text} (hmem : line ∈ lines text) :
    '\n' ∉ line ∧ line.length ≤ text.length := by
  induction text generalizing line with
  | nil => simp [lines] at hmem
  | cons c text ih =>
      rw [lines] at hmem
      split_ifs at hmem with hnewline
      · rcases List.mem_cons.mp hmem with rfl | hrest
        · simp
        · exact ⟨(ih hrest).1, (ih hrest).2.trans (by simp)⟩
      · cases hlines : lines text with
        | nil =>
            rw [hlines] at hmem
            obtain rfl : line = [c] := by simpa using hmem
            exact ⟨by simpa using Ne.symm hnewline, by simp⟩
        | cons first rest =>
            rw [hlines] at hmem
            rcases List.mem_cons.mp hmem with rfl | hrest
            · have hfirst := @ih first (by simp [hlines])
              exact ⟨by simpa using ⟨Ne.symm hnewline, hfirst.1⟩, by simpa using hfirst.2⟩
            · have hother := @ih line (by simp [hlines, hrest])
              exact ⟨hother.1, hother.2.trans (by simp)⟩

/-! ## Separators -/

theorem findFirstOf_of_notMem {c : Char} {s : Text} (hmem : c ∉ s) : findFirstOf c s = npos := by
  have hnone : s.findIdx? (· = c) = none := by
    rw [List.findIdx?_eq_none_iff]
    intro d hd
    simpa using fun heq : d = c => hmem (heq ▸ hd)
  rw [findFirstOf, hnone]

theorem findFirstOf_append {c : Char} (before after : Text) (hbefore : c ∉ before) :
    findFirstOf c (before ++ c :: after) = before.length := by
  have hsome : (before ++ c :: after).findIdx? (· = c) = some before.length := by
    rw [List.findIdx?_eq_some_iff_getElem]
    refine ⟨by simp, by simp, ?_⟩
    intro index hindex
    rw [List.getElem_append_left hindex]
    simpa using fun heq : before[index] = c => hbefore (heq ▸ List.getElem_mem hindex)
  rw [findFirstOf, hsome]

/-- A line is split by its first separator. -/
theorem exists_split {c : Char} {s : Text} (hmem : c ∈ s) :
    ∃ before after, s = before ++ c :: after ∧ c ∉ before := by
  induction s with
  | nil => simp at hmem
  | cons d s ih =>
      by_cases hd : d = c
      · exact ⟨[], s, by simp [hd], by simp⟩
      · obtain ⟨before, after, rfl, hbefore⟩ :=
          ih ((List.mem_cons.mp hmem).resolve_left (Ne.symm hd))
        exact ⟨d :: before, after, rfl, by simpa using ⟨Ne.symm hd, hbefore⟩⟩

theorem substr_of_le {s : Text} {pos count : ℕ} (hpos : pos ≤ s.length) :
    substr s pos count = .ok ((s.drop pos).take count) := by
  rw [substr, if_neg (by omega)]
  rfl

theorem intExpr_of_fits {value : ℤ} (hfits : FitsInt value) : intExpr value = .ok value := by
  rw [intExpr, if_pos hfits]
  rfl

/-! ## Single lines -/

theorem ok_bind {α β : Type} (a : α) (next : α → Except Failure β) :
    (Except.ok a >>= next) = next a := rfl

/-- The longest string: `max_size()` of `std::string`. -/
def maxSize : ℕ := 2 ^ 62

variable (state : LoadState)

/-- Storing an empty section, as a header line does. -/
def LoadState.openSection (name : Text) : LoadState :=
  ⟨name, state.mSections.insert name OrderedMap.empty⟩

/-- Storing a setting in the current section, as an assignment line does. -/
def LoadState.assign (key value : Text) : LoadState :=
  ⟨state.current, state.mSections.insert state.current
    (((state.mSections.find? state.current).getD OrderedMap.empty).insert key ⟨value⟩)⟩

/-- A header whose bracket is within reach of `int`. -/
theorem loadHeader_closed (name after : Text) (hname : ']' ∉ name)
    (hlength : name.length + 1 < 2 ^ 31) :
    loadHeader state ('[' :: (name ++ ']' :: after)) = .ok (state.openSection (trim name)) := by
  have hfind : findFirstOf ']' ('[' :: (name ++ ']' :: after)) = name.length + 1 :=
    findFirstOf_append ('[' :: name) after (by simpa using hname)
  have hpos : toInt ((name.length + 1 : ℕ) : ℤ) = (name.length + 1 : ℕ) :=
    toInt_eq_self ⟨by omega, by omega⟩
  have hcount : toSize ((name.length + 1 : ℕ) - 1 : ℤ) = name.length := by
    have hsub : ((name.length + 1 : ℕ) - 1 : ℤ) = (name.length : ℕ) := by push_cast; ring
    rw [hsub]
    exact toSize_natCast (by omega)
  rw [loadHeader, hfind, hpos, intExpr_of_fits ⟨by omega, by omega⟩]
  rw [ok_bind, hcount, substr_of_le (by simp)]
  simp only [List.drop_succ_cons, List.drop_zero, List.take_left]
  rfl

/-- A header without a bracket names the rest of its line. -/
theorem loadHeader_open (name : Text) (hname : ']' ∉ name) (hlength : name.length < 2 ^ 63) :
    loadHeader state ('[' :: name) = .ok (state.openSection (trim name)) := by
  have hfind : findFirstOf ']' ('[' :: name) = npos :=
    findFirstOf_of_notMem (by simpa using hname)
  rw [loadHeader, hfind, toInt_npos, intExpr_of_fits (by decide), ok_bind]
  have hcount : name.length ≤ toSize (-1 - 1) :=
    hlength.le.trans (toSize_of_neg (by omega) (by omega))
  rw [substr_of_le (by simp), List.drop_succ_cons, List.drop_zero, List.take_of_length_le hcount]
  rfl

/-- An assignment whose separator is within reach of `int`. -/
theorem loadAssignment_split (key value : Text) (hkey : '=' ∉ key)
    (hlength : key.length + 1 < 2 ^ 31) (hbound : (key ++ '=' :: value).length < 2 ^ 63) :
    loadAssignment state (key ++ '=' :: value) = .ok (state.assign (trim key) (trim value)) := by
  have hsize : (key ++ '=' :: value).length = key.length + 1 + value.length := by
    simp only [List.length_append, List.length_cons]
    omega
  have hpos : toInt (key.length : ℤ) = key.length := toInt_eq_self ⟨by omega, by omega⟩
  have hkeyCount : toSize (key.length : ℤ) = key.length := toSize_natCast (by omega)
  have hstart : toSize ((key.length : ℤ) + 1) = key.length + 1 := by
    have hcast : (key.length : ℤ) + 1 = (key.length + 1 : ℕ) := by push_cast; ring
    rw [hcast]
    exact toSize_natCast (by omega)
  have hcount : toSize (((key ++ '=' :: value).length : ℤ) - key.length) = value.length + 1 := by
    have hcast : ((key ++ '=' :: value).length : ℤ) - key.length = (value.length + 1 : ℕ) := by
      rw [hsize]
      push_cast
      ring
    rw [hcast]
    exact toSize_natCast (by omega)
  have hdrop : (key ++ '=' :: value).drop (key.length + 1) = value := by
    rw [← List.drop_drop, List.drop_left]
    rfl
  rw [loadAssignment, findFirstOf_append key value hkey, hpos,
    intExpr_of_fits ⟨by omega, by omega⟩, hkeyCount, substr_of_le (by simp), ok_bind, ok_bind,
    hstart, hcount, substr_of_le (by omega), hdrop, List.drop_zero, List.take_left,
    List.take_of_length_le (by omega)]
  rfl

/-- A line without a separator is both key and value. -/
theorem loadAssignment_missing (line : Text) (hline : '=' ∉ line)
    (hbound : line.length < 2 ^ 63) :
    loadAssignment state line = .ok (state.assign (trim line) (trim line)) := by
  have hwhole : line.length ≤ toSize (-1) :=
    hbound.le.trans (toSize_of_neg (by omega) (by omega))
  have hcount : toSize ((line.length : ℤ) - -1) = line.length + 1 := by
    have hcast : (line.length : ℤ) - -1 = (line.length + 1 : ℕ) := by push_cast; ring
    rw [hcast]
    exact toSize_natCast (by omega)
  have hstart : toSize (-1 + 1) = 0 := by decide
  rw [loadAssignment, findFirstOf_of_notMem hline, toInt_npos, intExpr_of_fits (by decide),
    substr_of_le (by simp), List.drop_zero, List.take_of_length_le hwhole, ok_bind, ok_bind,
    hstart, hcount, substr_of_le (by simp), List.drop_zero,
    List.take_of_length_le (by omega)]
  rfl

/-! ## What can be printed -/

structure NameOk (name : Text) : Prop where
  trimmed : TrimmedBy isBlank name
  noBracket : ']' ∉ name
  oneLine : '\n' ∉ name
  fits : name.length + 1 < 2 ^ 31

structure KeyOk (key : Text) : Prop where
  trimmed : TrimmedBy isBlank key
  noSeparator : '=' ∉ key
  notHeader : key.head? ≠ some '['
  oneLine : '\n' ∉ key
  fits : key.length + 2 < 2 ^ 31

structure ValueOk (value : Text) : Prop where
  trimmed : TrimmedBy isBlank value
  oneLine : '\n' ∉ value
  fits : value.length < maxSize

/-- The invariant of everything `load` stores. -/
def Printable (sections : OrderedMap Text Sections) : Prop :=
  ∀ name entries, sections.find? name = some entries → NameOk name ∧
    ∀ key value, entries.find? key = some value → KeyOk key ∧ ValueOk value.mValue

instance (name : Text) : Decidable (NameOk name) :=
  decidable_of_iff (TrimmedBy isBlank name ∧ ']' ∉ name ∧ '\n' ∉ name ∧ name.length + 1 < 2 ^ 31)
    ⟨fun h => ⟨h.1, h.2.1, h.2.2.1, h.2.2.2⟩, fun h => ⟨h.1, h.2, h.3, h.4⟩⟩

instance (key : Text) : Decidable (KeyOk key) :=
  decidable_of_iff (TrimmedBy isBlank key ∧ '=' ∉ key ∧ key.head? ≠ some '[' ∧ '\n' ∉ key ∧
    key.length + 2 < 2 ^ 31)
    ⟨fun h => ⟨h.1, h.2.1, h.2.2.1, h.2.2.2.1, h.2.2.2.2⟩, fun h => ⟨h.1, h.2, h.3, h.4, h.5⟩⟩

instance (value : Text) : Decidable (ValueOk value) :=
  decidable_of_iff (TrimmedBy isBlank value ∧ '\n' ∉ value ∧ value.length < maxSize)
    ⟨fun h => ⟨h.1, h.2.1, h.2.2⟩, fun h => ⟨h.1, h.2, h.3⟩⟩

/-- The condition on what `str` prints. -/
theorem printable_iff {sections : OrderedMap Text Sections} : Printable sections ↔
    ∀ named ∈ sections.entries, NameOk named.1 ∧
      ∀ entry ∈ named.2.entries, KeyOk entry.1 ∧ ValueOk entry.2.mValue := by
  constructor
  · intro hprintable named hnamed
    obtain ⟨hname, hentries⟩ := hprintable named.1 named.2
      ((OrderedMap.lookup?_eq_some_iff sections.sorted).mpr hnamed)
    exact ⟨hname, fun entry hentry => hentries entry.1 entry.2
      ((OrderedMap.lookup?_eq_some_iff named.2.sorted).mpr hentry)⟩
  · intro hprinted name entries hfind
    obtain ⟨hname, hentries⟩ := hprinted (name, entries)
      ((OrderedMap.lookup?_eq_some_iff sections.sorted).mp hfind)
    exact ⟨hname, fun key value hvalue => hentries (key, value)
      ((OrderedMap.lookup?_eq_some_iff entries.sorted).mp hvalue)⟩

variable {state}

theorem printable_empty : Printable OrderedMap.empty := by
  intro name entries hfind
  simp at hfind

theorem Printable.openSection (hprintable : Printable state.mSections) {name : Text}
    (hname : NameOk name) : Printable (state.openSection name).mSections := by
  intro other entries hfind
  rw [LoadState.openSection, OrderedMap.find?_insert] at hfind
  split_ifs at hfind with heq
  · cases hfind
    subst heq
    exact ⟨hname, by simp⟩
  · exact hprintable other entries hfind

theorem Printable.assign (hprintable : Printable state.mSections) (hcurrent : NameOk state.current)
    {key value : Text} (hkey : KeyOk key) (hvalue : ValueOk value) :
    Printable (state.assign key value).mSections := by
  intro name entries hfind
  rw [LoadState.assign, OrderedMap.find?_insert] at hfind
  split_ifs at hfind with heq
  · cases hfind
    subst heq
    refine ⟨hcurrent, ?_⟩
    intro other stored hstored
    rw [OrderedMap.find?_insert] at hstored
    split_ifs at hstored with hother
    · cases hstored
      subst hother
      exact ⟨hkey, hvalue⟩
    · cases hold : state.mSections.find? state.current with
      | none => simp [hold] at hstored
      | some old =>
          rw [hold] at hstored
          exact (hprintable _ _ hold).2 other stored hstored
  · exact hprintable name entries hfind

/-! ## Loading keeps the invariant -/

/-- The bracket that `load` finds in a header, or the one that `str` will
print, stands where an `int` can point. -/
abbrev HeaderFits (rest : Text) : Prop :=
  if ']' ∈ rest then findFirstOf ']' ('[' :: rest) < 2 ^ 31
  else (trim rest).length + 1 < 2 ^ 31

/-- Likewise for the separator of an assignment and the character behind it. -/
abbrev AssignmentFits (line : Text) : Prop :=
  if '=' ∈ line then
    findFirstOf '=' line + 1 < 2 ^ 31 ∧ (trim (line.take (findFirstOf '=' line))).length + 2 < 2 ^ 31
  else line.length + 2 < 2 ^ 31

/-- No separator of a trimmed line is out of reach of an `int`. -/
def SeparatorFits : Text → Prop
  | [] => True
  | c :: rest => if c = '[' then HeaderFits rest else AssignmentFits (c :: rest)

instance : (line : Text) → Decidable (SeparatorFits line)
  | [] => inferInstanceAs (Decidable True)
  | c :: rest => inferInstanceAs (Decidable (if c = '[' then HeaderFits rest else AssignmentFits (c :: rest)))

/-- The parts of a line that stay on one line and within the size of a string. -/
theorem valueOk_trim {line value : Text} (hline : '\n' ∉ line) (hlength : line.length < maxSize)
    (hwithin : value <:+: line) : ValueOk (trim value) where
  trimmed := trimmedBy_trimBy value
  oneLine := fun hmem => hline (hwithin.subset (mem_of_mem_trimBy hmem))
  fits := ((length_trimBy_le value).trans hwithin.length_le).trans_lt hlength

theorem nameOk_trim {line name : Text} (hline : '\n' ∉ line) (hwithin : name <:+: line)
    (hname : ']' ∉ name) (hfits : (trim name).length + 1 < 2 ^ 31) : NameOk (trim name) where
  trimmed := trimmedBy_trimBy name
  noBracket := fun hmem => hname (mem_of_mem_trimBy hmem)
  oneLine := fun hmem => hline (hwithin.subset (mem_of_mem_trimBy hmem))
  fits := hfits

/-- A key is the trimmed beginning of a line that is no header. -/
theorem keyOk_trim {line key : Text} (hline : '\n' ∉ line) (htrimmed : TrimmedBy isBlank line)
    (hheader : line.head? ≠ some '[') (hfront : key <+: line) (hkey : '=' ∉ key)
    (hfits : (trim key).length + 2 < 2 ^ 31) : KeyOk (trim key) where
  trimmed := trimmedBy_trimBy key
  noSeparator := fun hmem => hkey (mem_of_mem_trimBy hmem)
  notHeader := by
    have hhead : ∀ c ∈ key.head?, c ∈ line.head? := by
      obtain ⟨rest, rfl⟩ := hfront
      intro c hc
      rw [List.head?_append, Option.mem_def.mp hc]
      rfl
    have hbegin : trim key <+: key :=
      trimBy_isPrefix fun c hc => htrimmed.1 c (hhead c hc)
    obtain ⟨rest, hrest⟩ := hbegin
    intro hbracket
    refine hheader (hhead '[' ?_)
    rw [← hrest, List.head?_append, hbracket]
    rfl
  oneLine := fun hmem => hline (hfront.subset (mem_of_mem_trimBy hmem))
  fits := hfits

/-- What one line does to the invariant. -/
theorem loadLine_printable {line : Text} (hline : '\n' ∉ line) (hlength : line.length < maxSize)
    (hfits : SeparatorFits (trim line)) (hcurrent : NameOk state.current)
    (hprintable : Printable state.mSections) :
    ∃ state', loadLine state line = .ok state' ∧ NameOk state'.current ∧
      Printable state'.mSections := by
  have htrimmed : TrimmedBy isBlank (trim line) := trimmedBy_trimBy line
  have hwithin : trim line <:+: line := trimBy_isInfix line
  have honeLine : '\n' ∉ trim line := fun hmem => hline (hwithin.subset hmem)
  have hsize : (trim line).length < maxSize := hwithin.length_le.trans_lt hlength
  rw [loadLine]
  cases htrim : trim line with
  | nil => exact ⟨state, rfl, hcurrent, hprintable⟩
  | cons c rest =>
      rw [htrim] at htrimmed honeLine hsize hfits
      have hbound : (c :: rest).length < 2 ^ 63 := hsize.trans (by decide)
      by_cases hheader : c = '['
      · subst hheader
        simp only [SeparatorFits, HeaderFits, if_true] at hfits ⊢
        have hstore : ∀ name : Text, name <:+: rest → ']' ∉ name →
            (trim name).length + 1 < 2 ^ 31 →
            NameOk (state.openSection (trim name)).current ∧
              Printable (state.openSection (trim name)).mSections := by
          intro name hname hbracket hshort
          have hok := nameOk_trim honeLine (hname.trans (List.suffix_cons '[' rest).isInfix)
            hbracket hshort
          exact ⟨hok, hprintable.openSection hok⟩
        by_cases hbracket : ']' ∈ rest
        · rw [if_pos hbracket] at hfits
          obtain ⟨name, after, rfl, hname⟩ := exists_split hbracket
          have hfind : findFirstOf ']' ('[' :: (name ++ ']' :: after)) = name.length + 1 :=
            findFirstOf_append ('[' :: name) after (by simpa using hname)
          rw [hfind] at hfits
          have hshort := length_trimBy_le (p := isBlank) name
          exact ⟨_, loadHeader_closed state name after hname hfits,
            hstore name (List.prefix_append _ _).isInfix hname
              (by simp only [trim]; omega)⟩
        · rw [if_neg hbracket] at hfits
          exact ⟨_, loadHeader_open state rest hbracket (by simp at hbound; omega),
            hstore rest (List.infix_refl _) hbracket hfits⟩
      · simp only [SeparatorFits, AssignmentFits, if_neg hheader] at hfits ⊢
        have hhead : (c :: rest).head? ≠ some '[' := by simpa using hheader
        have hstore : ∀ key value : Text, key <+: c :: rest → value <:+: c :: rest → '=' ∉ key →
            (trim key).length + 2 < 2 ^ 31 →
            NameOk (state.assign (trim key) (trim value)).current ∧
              Printable (state.assign (trim key) (trim value)).mSections := by
          intro key value hkey hvalue hseparator hshort
          exact ⟨hcurrent, hprintable.assign hcurrent
            (keyOk_trim honeLine htrimmed hhead hkey hseparator hshort)
            (valueOk_trim honeLine hsize hvalue)⟩
        by_cases hseparator : '=' ∈ c :: rest
        · rw [if_pos hseparator] at hfits
          obtain ⟨key, value, hsplit, hkey⟩ := exists_split hseparator
          rw [hsplit] at hbound hfits hstore ⊢
          rw [findFirstOf_append key value hkey, List.take_left] at hfits
          exact ⟨_, loadAssignment_split state key value hkey hfits.1 hbound,
            hstore key value (List.prefix_append _ _)
              ((List.suffix_cons '=' value).trans (List.suffix_append _ _)).isInfix hkey hfits.2⟩
        · rw [if_neg hseparator] at hfits
          have hshort := length_trimBy_le (p := isBlank) (c :: rest)
          exact ⟨_, loadAssignment_missing state _ hseparator hbound,
            hstore _ _ (List.prefix_refl _) (List.infix_refl _) hseparator
              (by simp only [trim]; omega)⟩

theorem foldlM_loadLine_printable (texts : List Text) (state : LoadState)
    (hline : ∀ line ∈ texts, '\n' ∉ line ∧ line.length < maxSize)
    (hfits : ∀ line ∈ texts, SeparatorFits (trim line)) (hcurrent : NameOk state.current)
    (hprintable : Printable state.mSections) :
    ∃ state', texts.foldlM loadLine state = .ok state' ∧ Printable state'.mSections := by
  induction texts generalizing state with
  | nil => exact ⟨state, rfl, hprintable⟩
  | cons line texts ih =>
      obtain ⟨middle, hstep, hmiddle, hmiddle'⟩ := loadLine_printable (hline line (by simp)).1
        (hline line (by simp)).2 (hfits line (by simp)) hcurrent hprintable
      obtain ⟨state', hrun, hstate'⟩ := ih middle (fun other hother => hline other (by simp [hother]))
        (fun other hother => hfits other (by simp [hother])) hmiddle hmiddle'
      exact ⟨state', by rw [List.foldlM_cons, hstep, ok_bind, hrun], hstate'⟩

/-! ## Loading printed lines -/

theorem isBlank_bracket : isBlank '[' = false ∧ isBlank ']' = false ∧ isBlank '=' = false := by
  decide

theorem trim_headerLine (name : Text) : trim (headerLine name) = headerLine name := by
  apply trimBy_of_trimmed
  refine ⟨by simpa [headerLine] using isBlank_bracket.1, ?_⟩
  rw [headerLine, List.getLast?_append]
  simpa using isBlank_bracket.2.1

theorem loadLine_headerLine {name : Text} (hname : NameOk name) :
    loadLine state (headerLine name) = .ok (state.openSection name) := by
  have hclosed := loadHeader_closed state name [] hname.noBracket hname.fits
  rw [show trim name = name from trimBy_of_trimmed hname.trimmed] at hclosed
  rw [loadLine, trim_headerLine]
  exact hclosed

theorem isBlank_pad : ∀ c ∈ [' '], isBlank c = true := by
  simp [isBlank]

/-- The printed key with the blank that separates it from the sign, if any. -/
def keyPart (key : Text) : Text := if key = [] then [] else key ++ [' ']

def valuePart (value : Text) : Text := if value = [] then [] else ' ' :: value

/-- Trimming a printed assignment removes a blank where a part is missing. -/
theorem trim_entryLine {key value : Text} (hkey : TrimmedBy isBlank key)
    (hvalue : TrimmedBy isBlank value) :
    trim (key ++ [' ', '=', ' '] ++ value) = keyPart key ++ '=' :: valuePart value := by
  have hkeyHead : ∀ c ∈ (keyPart key ++ '=' :: valuePart value).head?, isBlank c = false := by
    intro c hc
    cases key with
    | nil =>
        obtain rfl : '=' = c := by simpa [keyPart] using hc
        exact isBlank_bracket.2.2
    | cons d key => exact hkey.1 c (by simpa [keyPart] using hc)
  have hvalueLast : ∀ c ∈ (keyPart key ++ '=' :: valuePart value).getLast?, isBlank c = false := by
    intro c hc
    cases value with
    | nil =>
        obtain rfl : '=' = c := by simpa [valuePart] using hc
        exact isBlank_bracket.2.2
    | cons d value =>
        refine hvalue.2 c ?_
        simpa [valuePart, List.getLast?_append, List.getLast?_cons] using hc
  have hcore : TrimmedBy isBlank (keyPart key ++ '=' :: valuePart value) :=
    ⟨hkeyHead, hvalueLast⟩
  have hleft : ∀ c ∈ (if key = [] then [' '] else []), isBlank c = true := by
    split_ifs <;> simp [isBlank_pad]
  have hright : ∀ c ∈ (if value = [] then [' '] else []), isBlank c = true := by
    split_ifs <;> simp [isBlank_pad]
  have hsplit : key ++ [' ', '=', ' '] ++ value =
      (if key = [] then [' '] else []) ++ ((keyPart key ++ '=' :: valuePart value) ++
        (if value = [] then [' '] else [])) := by
    by_cases hk : key = [] <;> by_cases hv : value = [] <;> simp [keyPart, valuePart, hk, hv]
  rw [hsplit]
  exact trimBy_padded _ _ hleft hright hcore

theorem trim_keyPart {key : Text} (hkey : TrimmedBy isBlank key) : trim (keyPart key) = key := by
  rw [keyPart]
  split_ifs with hnil
  · simp [hnil, trim, trimBy]
  · exact trimBy_padded [] [' '] (by simp) isBlank_pad hkey

theorem trim_valuePart {value : Text} (hvalue : TrimmedBy isBlank value) :
    trim (valuePart value) = value := by
  rw [valuePart]
  split_ifs with hnil
  · simp [hnil, trim, trimBy]
  · have hpadded := trimBy_padded [' '] [] isBlank_pad (by simp) hvalue
    rwa [List.append_nil] at hpadded

theorem loadLine_entryLine {key : Text} {value : Value} (hkey : KeyOk key)
    (hvalue : ValueOk value.mValue) :
    loadLine state (entryLine (key, value)) = .ok (state.assign key value.mValue) := by
  have hkeySize : (keyPart key).length ≤ key.length + 1 := by
    rw [keyPart]
    split_ifs <;> simp
  have hvalueSize : (valuePart value.mValue).length ≤ value.mValue.length + 1 := by
    rw [valuePart]
    split_ifs <;> simp
  have hseparator : '=' ∉ keyPart key := by
    rw [keyPart]
    split_ifs
    · simp
    · simpa using hkey.noSeparator
  have hbound : (keyPart key ++ '=' :: valuePart value.mValue).length < 2 ^ 63 := by
    have hkeyFits := hkey.fits
    have hvalueFits := hvalue.fits
    simp only [List.length_append, List.length_cons, maxSize] at hvalueFits ⊢
    omega
  have hload := loadAssignment_split state (keyPart key) (valuePart value.mValue) hseparator
    (by have := hkey.fits; omega) hbound
  rw [trim_keyPart hkey.trimmed, trim_valuePart hvalue.trimmed] at hload
  have hheader : (keyPart key ++ '=' :: valuePart value.mValue).head? ≠ some '[' := by
    cases hkeyCases : key with
    | nil => simp [keyPart]
    | cons c rest => simpa [keyPart, hkeyCases] using hkey.notHeader
  rw [loadLine, entryLine, trim_entryLine hkey.trimmed hvalue.trimmed]
  cases hline : keyPart key ++ '=' :: valuePart value.mValue with
  | nil => simp at hline
  | cons c rest =>
      rw [hline] at hheader hload
      have hc : c ≠ '[' := by simpa using hheader
      simp only [if_neg hc]
      exact hload

/-- The assignments of a section, on top of what the section already holds. -/
theorem foldlM_entryLine (entries : List (Text × Value)) (name : Text)
    (sections : OrderedMap Text Sections) (held : Sections)
    (hentries : ∀ entry ∈ entries, KeyOk entry.1 ∧ ValueOk entry.2.mValue) :
    (entries.map entryLine).foldlM loadLine ⟨name, sections.insert name held⟩ =
      .ok ⟨name, sections.insert name
        (entries.foldl (fun held entry => held.insert entry.1 entry.2) held)⟩ := by
  induction entries generalizing held with
  | nil => rfl
  | cons entry entries ih =>
      obtain ⟨hkey, hvalue⟩ := hentries entry (by simp)
      have hassign : (LoadState.mk name (sections.insert name held)).assign entry.1
          entry.2.mValue = ⟨name, sections.insert name (held.insert entry.1 entry.2)⟩ := by
        simp only [LoadState.assign, OrderedMap.find?_insert, if_true, Option.getD_some,
          OrderedMap.insert_insert]
      rw [List.map_cons, List.foldlM_cons, loadLine_entryLine hkey hvalue, ok_bind, hassign,
        ih _ fun other hother => hentries other (by simp [hother])]
      rfl

theorem foldlM_sectionLines {named : Text × Sections} (hname : NameOk named.1)
    (hentries : ∀ entry ∈ named.2.entries, KeyOk entry.1 ∧ ValueOk entry.2.mValue) :
    (sectionLines named).foldlM loadLine state =
      .ok ⟨named.1, state.mSections.insert named.1 named.2⟩ := by
  rw [sectionLines, List.foldlM_cons, loadLine_headerLine hname, ok_bind]
  refine (foldlM_entryLine named.2.entries named.1 state.mSections OrderedMap.empty
    hentries).trans ?_
  rw [OrderedMap.foldl_insert_entries]

/-- Loading all printed sections inserts them in order. -/
theorem foldlM_sections (printed : List (Text × Sections)) (state : LoadState)
    (hprinted : ∀ named ∈ printed, NameOk named.1 ∧
      ∀ entry ∈ named.2.entries, KeyOk entry.1 ∧ ValueOk entry.2.mValue) :
    ∃ current, (printed.flatMap sectionLines).foldlM loadLine state =
      .ok ⟨current, printed.foldl (fun sections named => sections.insert named.1 named.2)
        state.mSections⟩ := by
  induction printed generalizing state with
  | nil => exact ⟨state.current, rfl⟩
  | cons named printed ih =>
      obtain ⟨hname, hentries⟩ := hprinted named (by simp)
      obtain ⟨current, hrun⟩ := ih ⟨named.1, state.mSections.insert named.1 named.2⟩
        fun other hother => hprinted other (by simp [hother])
      refine ⟨current, ?_⟩
      rw [List.flatMap_cons, List.foldlM_append, foldlM_sectionLines hname hentries, ok_bind, hrun]
      rfl

theorem entryLine_oneLine {entry : Text × Value} (hkey : KeyOk entry.1)
    (hvalue : ValueOk entry.2.mValue) : '\n' ∉ entryLine entry := by
  simp [entryLine, hkey.oneLine, hvalue.oneLine]

theorem headerLine_oneLine {name : Text} (hname : NameOk name) : '\n' ∉ headerLine name := by
  simp [headerLine, hname.oneLine]

/-- Printing a printable map and loading the result gives the map back. -/
theorem load_str_of_printable (file : IniFile) (hprintable : Printable file.mSections) :
    load fresh (str file) = .ok file := by
  have hprinted := printable_iff.mp hprintable
  have honeLine : ∀ line ∈ file.mSections.entries.flatMap sectionLines, '\n' ∉ line := by
    intro line hline
    obtain ⟨named, hnamed, hline⟩ := List.mem_flatMap.mp hline
    obtain ⟨hname, hentries⟩ := hprinted named hnamed
    rcases List.mem_cons.mp hline with rfl | hline
    · exact headerLine_oneLine hname
    · obtain ⟨entry, hentry, rfl⟩ := List.mem_map.mp hline
      exact entryLine_oneLine (hentries entry hentry).1 (hentries entry hentry).2
  obtain ⟨current, hrun⟩ := foldlM_sections file.mSections.entries
    ⟨[], OrderedMap.empty⟩ hprinted
  rw [load, str, lines_unlines _ honeLine]
  change ((file.mSections.entries.flatMap sectionLines).foldlM loadLine
    ⟨[], OrderedMap.empty⟩ >>= _) = _
  rw [hrun, OrderedMap.foldl_insert_entries]
  rfl

/-- What `load` makes of a text is what it makes of the text printed for it,
as long as no line has a separator that an `int` cannot point at. -/
theorem load_str_load (text : Text) (hsize : text.length < maxSize)
    (hfits : ∀ line ∈ lines text, SeparatorFits (trim line)) :
    ∃ file, load fresh text = .ok file ∧ load fresh (str file) = .ok file := by
  obtain ⟨state, hrun, hprintable⟩ := foldlM_loadLine_printable (lines text)
    ⟨[], OrderedMap.empty⟩
    (fun line hline => ⟨(of_mem_lines hline).1, (of_mem_lines hline).2.trans_lt hsize⟩) hfits
    ⟨trimmedBy_nil, by simp, by simp, by decide⟩ printable_empty
  refine ⟨⟨state.mSections⟩, ?_, load_str_of_printable _ hprintable⟩
  rw [load]
  change ((lines text).foldlM loadLine ⟨[], OrderedMap.empty⟩ >>= _) = _
  rw [hrun]
  rfl

/-- An open header, an empty key, a line without a sign, and a repeated header. -/
theorem load_str_load_malformed :
    ∃ file, load fresh "[a b\n = x\nword\r\n  \n[c]]\n[c]\nk = v = w".toList = .ok file ∧
      load fresh (str file) = .ok file :=
  load_str_load "[a b\n = x\nword\r\n  \n[c]]\n[c]\nk = v = w".toList (by decide) (by decide)

/-! ## A bracket out of reach -/

theorem lines_of_oneLine {line : Text} (hline : '\n' ∉ line) (hne : line ≠ []) :
    lines line = [line] := by
  induction line with
  | nil => exact absurd rfl hne
  | cons c line ih =>
      simp only [List.mem_cons, not_or] at hline
      rw [lines, if_neg (Ne.symm hline.1)]
      cases line with
      | nil => rfl
      | cons d line => rw [ih hline.2 (by simp)]

/-- With the bracket beyond `2^31` the count passed to `substr` is negative,
and the name runs on to the end of the line. -/
theorem loadHeader_far (name after : Text) (hname : ']' ∉ name)
    (hlow : 2 ^ 31 < name.length + 1) (hhigh : name.length + 1 ≤ 2 ^ 32)
    (hbound : (name ++ ']' :: after).length < 2 ^ 63) :
    loadHeader state ('[' :: (name ++ ']' :: after)) =
      .ok (state.openSection (trim (name ++ ']' :: after))) := by
  have hfind : findFirstOf ']' ('[' :: (name ++ ']' :: after)) = name.length + 1 :=
    findFirstOf_append ('[' :: name) after (by simpa using hname)
  have hpos : toInt ((name.length + 1 : ℕ) : ℤ) = (name.length + 1 : ℕ) - 2 ^ 32 := by
    rw [toInt, ← Int.sub_bmod_right]
    exact Int.bmod_eq_of_le (by omega) (by omega)
  have hcount : (name ++ ']' :: after).length ≤
      toSize (((name.length + 1 : ℕ) : ℤ) - 2 ^ 32 - 1) :=
    hbound.le.trans (toSize_of_neg (by omega) (by omega))
  rw [loadHeader, hfind, hpos, intExpr_of_fits ⟨by omega, by omega⟩, ok_bind,
    substr_of_le (by simp), List.drop_succ_cons, List.drop_zero, List.take_of_length_le hcount]
  rfl

/-- Loading a single header whose bracket is out of reach. -/
theorem load_headerLine_far (name after : Text) (hname : ']' ∉ name) (hlow : 2 ^ 31 < name.length + 1)
    (hhigh : name.length + 1 ≤ 2 ^ 32) (hbound : (name ++ ']' :: after).length < 2 ^ 63)
    (htrimmed : TrimmedBy isBlank (name ++ ']' :: after))
    (text : Text) (htext : lines text = ['[' :: (name ++ ']' :: after)])
    (hlast : ∀ c ∈ (']' :: after).getLast?, isBlank c = false) :
    load fresh text =
      .ok ⟨OrderedMap.empty.insert (name ++ ']' :: after) OrderedMap.empty⟩ := by
  have hline : trim ('[' :: (name ++ ']' :: after)) = '[' :: (name ++ ']' :: after) := by
    apply trimBy_of_trimmed
    refine ⟨by simpa using isBlank_bracket.1, ?_⟩
    intro c hc
    refine hlast c ?_
    simpa [List.getLast?_cons, List.getLast?_append] using hc
  have hname' : trim (name ++ ']' :: after) = name ++ ']' :: after := trimBy_of_trimmed htrimmed
  have hload : loadHeader ⟨[], OrderedMap.empty⟩ ('[' :: (name ++ ']' :: after)) = _ :=
    loadHeader_far name after hname hlow hhigh hbound
  have hstep : loadLine ⟨[], fresh.mSections⟩ ('[' :: (name ++ ']' :: after)) =
      .ok ⟨name ++ ']' :: after, OrderedMap.empty.insert (name ++ ']' :: after)
        OrderedMap.empty⟩ := by
    rw [loadLine, hline]
    rw [hname'] at hload
    exact hload
  rw [load, htext, List.foldlM_cons, hstep]
  rfl

/-- A header with a name of `2^31` letters: each load of it moves one more
bracket into the name. -/
theorem load_str_load_farHeader :
    ¬∀ text : Text, text.length < maxSize →
      ∀ file, load fresh text = .ok file → load fresh (str file) = .ok file := by
  intro hstable
  obtain ⟨name, hname⟩ : ∃ name : Text, name = List.replicate (2 ^ 31) 'a' := ⟨_, rfl⟩
  have hlength : name.length = 2 ^ 31 := by rw [hname, List.length_replicate]
  have hletters : ∀ c ∈ name, c = 'a' := by
    rw [hname]
    exact fun c hc => List.eq_of_mem_replicate hc
  have hbracket : ']' ∉ name := fun hmem => absurd (hletters _ hmem) (by decide)
  have hnewline : '\n' ∉ name := fun hmem => absurd (hletters _ hmem) (by decide)
  have htrimmed : ∀ after : Text, (∀ c ∈ (']' :: after).getLast?, isBlank c = false) →
      TrimmedBy isBlank (name ++ ']' :: after) := by
    intro after hlast
    refine ⟨?_, ?_⟩
    · intro c hc
      have hmem : c ∈ name := by
        cases hcases : name with
        | nil => simp [hcases] at hlength
        | cons d rest =>
            obtain rfl : d = c := by simpa [hcases] using hc
            simp
      rw [hletters c hmem]
      decide
    · intro c hc
      refine hlast c ?_
      simpa [List.getLast?_append] using hc
  have hfirst := load_headerLine_far name [] hbracket (by omega) (by omega)
    (by simp only [List.length_append, List.length_cons, List.length_nil]; omega)
    (htrimmed [] (by simpa using isBlank_bracket.2.1)) (headerLine name)
    (lines_of_oneLine (by simp [headerLine, hnewline]) (by simp [headerLine]))
    (by simpa using isBlank_bracket.2.1)
  have hsecond := load_headerLine_far name [']'] hbracket (by omega) (by omega)
    (by simp only [List.length_append, List.length_cons, List.length_nil]; omega)
    (htrimmed [']'] (by simpa using isBlank_bracket.2.1))
    (str ⟨OrderedMap.empty.insert (name ++ [']']) OrderedMap.empty⟩)
    (by
      refine (lines_unlines [headerLine (name ++ [']'])] ?_).trans ?_
      · simp [headerLine, hnewline]
      · simp [headerLine])
    (by simpa using isBlank_bracket.2.1)
  have hsize : (headerLine name).length < maxSize := by
    simp only [headerLine, List.length_append, List.length_cons, List.length_nil, maxSize]
    omega
  have hagain := hstable (headerLine name) hsize _ hfirst
  rw [hsecond] at hagain
  have hmaps := congrArg IniFile.mSections (Except.ok.inj hagain)
  have hfind := congrArg (fun sections => (sections.find? (name ++ [']'])).isSome) hmaps
  simp at hfind

end CppProjects.IniFile
