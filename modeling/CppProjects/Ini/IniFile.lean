import CppProjects.Core.CInt
import CppProjects.Core.OrderedMap
import CppProjects.Core.Trimming
import Mathlib.Data.Char

/-!
# INI files

`IniFile` keeps a map from section names to maps from keys to values.  `load`
reads a text line by line into it and `str` prints it.  Positions inside a line
are found as `size_t` and stored as `int`, so a missing separator becomes `-1`;
the conversions are kept where the source has them.

A byte is represented by the character with its code.
-/

namespace CppProjects

open CInt

abbrev Text := List Char

/-- `Value`, the wrapper around a setting. -/
structure Value where
  mValue : Text
  deriving DecidableEq, Repr

abbrev Sections := OrderedMap Text Value

structure IniFile where
  mSections : OrderedMap Text Sections

namespace IniFile

def fresh : IniFile := ⟨OrderedMap.empty⟩

/-- What ends a `load` early: the exception of `substr`, or a signed overflow. -/
inductive Failure
  | outOfRange
  | overflow
  deriving DecidableEq, Repr

/-! ## Strings -/

/-- The characters `trim` removes. -/
def isBlank (c : Char) : Bool := c = ' ' || c = '\n' || c = '\r'

/-- Erasing up to `find_first_not_of` and from behind `find_last_not_of`. -/
def trim (s : Text) : Text := trimBy isBlank s

/-- `find_first_of` for a single character. -/
def findFirstOf (c : Char) (s : Text) : ℕ :=
  match s.findIdx? (· = c) with
  | some pos => pos
  | none => npos

def substr (s : Text) (pos count : ℕ) : Except Failure Text :=
  if pos > s.length then throw .outOfRange else return (s.drop pos).take count

/-- The value of an `int` expression. -/
def intExpr (value : ℤ) : Except Failure ℤ :=
  if FitsInt value then return value else throw .overflow

/-- The lines that `getline` delivers: a last line needs no terminator, and
nothing follows a final one. -/
def lines : Text → List Text
  | [] => []
  | c :: text =>
      if c = '\n' then [] :: lines text
      else
        match lines text with
        | [] => [[c]]
        | line :: rest => (c :: line) :: rest

/-! ## Loading -/

/-- The local `section` of `load`, and the map being filled. -/
structure LoadState where
  current : Text
  mSections : OrderedMap Text Sections

/-- `m_sections[section] = Sections()` under a header line. -/
def loadHeader (state : LoadState) (line : Text) : Except Failure LoadState := do
  let pos := toInt (findFirstOf ']' line)
  let current ← substr line 1 (toSize (← intExpr (pos - 1)))
  let current := trim current
  return ⟨current, state.mSections.insert current OrderedMap.empty⟩

/-- `m_sections[section][key] = value` under an assignment line. -/
def loadAssignment (state : LoadState) (line : Text) : Except Failure LoadState := do
  let pos := toInt (findFirstOf '=' line)
  let key ← substr line 0 (toSize pos)
  let value ← substr line (toSize (← intExpr (pos + 1))) (toSize (line.length - pos))
  let key := trim key
  let value := trim value
  let entries := (state.mSections.find? state.current).getD OrderedMap.empty
  return ⟨state.current,
    state.mSections.insert state.current (entries.insert key ⟨value⟩)⟩

def loadLine (state : LoadState) (line : Text) : Except Failure LoadState :=
  match trim line with
  | [] => return state
  | c :: rest =>
      if c = '[' then loadHeader state (c :: rest) else loadAssignment state (c :: rest)

/-- `load` of a file that can be opened and holds `text`. -/
def load (file : IniFile) (text : Text) : Except Failure IniFile := do
  let state ← (lines text).foldlM loadLine ⟨[], file.mSections⟩
  return ⟨state.mSections⟩

/-! ## Printing -/

def entryLine (entry : Text × Value) : Text := entry.1 ++ [' ', '=', ' '] ++ entry.2.mValue

def headerLine (name : Text) : Text := '[' :: name ++ [']']

/-- The lines printed for one section. -/
def sectionLines (named : Text × Sections) : List Text :=
  headerLine named.1 :: named.2.entries.map entryLine

/-- Every line is ended by `endl`. -/
def unlines (printed : List Text) : Text := printed.flatMap (· ++ ['\n'])

def str (file : IniFile) : Text := unlines (file.mSections.entries.flatMap sectionLines)

end IniFile

end CppProjects
