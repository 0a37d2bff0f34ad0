import CppProjects.Core.CInt
import CppProjects.Core.Directory
import CppProjects.Core.JsonWidth
import CppProjects.Core.TransitionSystem

/-!
# The logger

`Logger` appends records to a file, counts their bytes, and renames the file when the
count reaches a limit.  Creating and renaming files succeeds where the file system has
what they need.  What `localtime` makes of a time is a parameter.

A record is written by several insertions into the stream, between which nothing else
happens; they are one piece of the file.
-/

namespace CppProjects

namespace Logger

open CInt JsonText

abbrev Text := List Char

/-- `Logger::Level`, without the count of its values. -/
inductive Level
  | debug | info | warn | error | fatal
deriving DecidableEq, Repr

namespace Level

/-- The value of an enumerator. -/
def code : Level → ℕ
  | debug => 0
  | info => 1
  | warn => 2
  | error => 3
  | fatal => 4

/-- `s_level`. -/
def name : Level → Text
  | debug => ['D', 'E', 'B', 'U', 'G']
  | info => ['I', 'N', 'F', 'O']
  | warn => ['W', 'A', 'R', 'N']
  | error => ['E', 'R', 'R', 'O', 'R']
  | fatal => ['F', 'A', 'T', 'A', 'L']

end Level

/-! ## Texts -/

/-- A broken-down time, as its fields are printed. -/
structure Tm where
  year : ℕ
  month : ℕ
  day : ℕ
  hour : ℕ
  minute : ℕ
  second : ℕ

/-- `%02d`. -/
def twoDigits (n : ℕ) : Text :=
  List.replicate (2 - (Nat.toDigits 10 n).length) '0' ++ Nat.toDigits 10 n

/-- `strftime` with `"%Y-%m-%d %H:%M:%S"`. -/
def strftime (tm : Tm) : Text :=
  Nat.toDigits 10 tm.year ++ '-' :: twoDigits tm.month ++ '-' :: twoDigits tm.day ++
    ' ' :: twoDigits tm.hour ++ ':' :: twoDigits tm.minute ++ ':' :: twoDigits tm.second

/-- The part of a buffer that is a C string. -/
def cString (buffer : Text) : Text := buffer.takeWhile (· ≠ '\x00')

/-- What `snprintf` returns for a text: its length, or an error where that is no `int`. -/
def snprintf (text : Text) : ℤ := if text.length ≤ intMax then text.length else -1

/-- The text of `"%s %s %s:%d "`. -/
def header (timestamp : Text) (level : Level) (file : Text) (line : ℤ) : Text :=
  timestamp ++ ' ' :: level.name ++ ' ' :: cString file ++ ':' :: showInt line ++ [' ']

/-- What one record inserts into the stream: `content` is what `vsnprintf` makes of the
format and its arguments. -/
def record (header content : Text) : Text :=
  (if 0 < snprintf header then cString header ++ [' '] else []) ++
    (if 0 < snprintf content then cString content else []) ++ ['\n']

/-- What one record adds to `cur_size`. -/
def counted (header content : Text) : ℤ :=
  (if 0 < snprintf header then snprintf header else 0) +
    (if 0 < snprintf content then snprintf content else 0)

/-! ## The logger and its files -/

/-- Part of a file: a record, or what was there before. -/
structure Piece where
  ticket : Option ℕ
  text : Text
deriving DecidableEq, Repr

/-- How many bytes a file has. -/
def fileLength (pieces : List Piece) : ℕ := (pieces.map fun piece => piece.text.length).sum

/-- `ofstream`: the file it is open on, and `fail()`. -/
structure Stream where
  file : Option Text
  fail : Bool
deriving DecidableEq, Repr

/-- What is thrown: `"open file failed "` with the name, or
`"rename log file falied: "` with the system's reason. -/
inductive Failure
  | openFailed (filename : Text)
  | renameFailed
deriving DecidableEq, Repr

/-- The logger, the files and the clock.  `written` counts the records and `rotated`
lists the names that `rotate` has given. -/
structure State where
  mFilename : Text
  mFout : Stream
  mLevel : Level
  maxSize : ℤ
  curSize : ℤ
  files : Directory Text Piece
  clock : ℤ
  written : ℕ
  rotated : List Text

/-- A call returns or throws. -/
structure Outcome where
  state : State
  failure : Option Failure

variable (localtime : ℤ → Tm)

namespace State

/-- The constructor. -/
def fresh (files : Directory Text Piece) (clock : ℤ) : State where
  mFilename := []
  mFout := ⟨none, false⟩
  mLevel := .debug
  maxSize := 0
  curSize := 0
  files := files
  clock := clock
  written := 0
  rotated := []

/-- `open`: a stream that is open already fails, and stays open. -/
def openFile (s : State) (filename : Text) : Outcome :=
  if s.mFout.file.isSome then
    ⟨{ s with mFilename := filename, mFout := { s.mFout with fail := true } },
      some (.openFailed filename)⟩
  else
    let files := s.files.create filename
    ⟨{ s with
      mFilename := filename
      mFout := ⟨some filename, false⟩
      files := files
      curSize := fileLength ((files filename).getD []) }, none⟩

/-- `close`: a stream that is not open fails. -/
def close (s : State) : State :=
  { s with mFout := ⟨none, s.mFout.fail || s.mFout.file.isNone⟩ }

/-- The name that `rotate` gives, with the clock read `elapsed` seconds later. -/
def rotatedName (s : State) (elapsed : ℕ) : Text :=
  s.mFilename ++ strftime (localtime (s.clock + elapsed))

def rotate (s : State) (elapsed : ℕ) : Outcome :=
  let filename := s.rotatedName localtime elapsed
  let s := { s.close with clock := s.clock + elapsed }
  match s.files.rename s.mFilename filename with
  | none => ⟨s, some .renameFailed⟩
  | some files =>
      { s with files := files, rotated := s.rotated ++ [filename] }.openFile s.mFilename

/-- The insertions of one record.  A stream that is not open takes nothing and fails. -/
def insert (s : State) (level : Level) (file : Text) (line : ℤ) (content : Text) (elapsed : ℕ) :
    State :=
  let clock := s.clock + elapsed
  let head := header (strftime (localtime clock)) level file line
  let s := { s with clock := clock, curSize := s.curSize + counted head content }
  match s.mFout.file with
  | none => { s with mFout := { s.mFout with fail := true } }
  | some name =>
      { s with
        files := s.files.append name ⟨some s.written, record head content⟩
        written := s.written + 1 }

/-- The level passes, and the stream has not failed. -/
def accepts (s : State) (level : Level) : Bool := s.mLevel.code < level.code && !s.mFout.fail

/-- `cur_size >= max_size && max_size > 0`. -/
def full (s : State) : Prop := s.curSize ≥ s.maxSize ∧ s.maxSize > 0

instance (s : State) : Decidable s.full := inferInstanceAs (Decidable (_ ∧ _))

def log (s : State) (level : Level) (file : Text) (line : ℤ) (content : Text)
    (elapsed later : ℕ) : Outcome :=
  if s.mLevel.code ≥ level.code then ⟨s, none⟩
  else if s.mFout.fail then ⟨s, some (.openFailed s.mFilename)⟩
  else
    let s := s.insert localtime level file line content elapsed
    if s.full then s.rotate localtime later else ⟨s, none⟩

end State

/-! ## Calls -/

inductive Action
  | openFile (filename : Text)
  | log (level : Level) (file : Text) (line : ℤ) (content : Text) (elapsed later : ℕ)
  | setLevel (level : Level)
  | setLogMax (bytes : ℤ)
  | rotate (elapsed : ℕ)

def State.perform (s : State) : Action → Outcome
  | .openFile filename => s.openFile filename
  | .log level file line content elapsed later => s.log localtime level file line content elapsed later
  | .setLevel level => ⟨{ s with mLevel := level }, none⟩
  | .setLogMax bytes => ⟨{ s with maxSize := bytes }, none⟩
  | .rotate elapsed => s.rotate localtime elapsed

/-- All calls, from the constructor on; the caller goes on behind what is thrown. -/
def system : TransitionSystem State Action where
  initial s := ∃ files clock, s = State.fresh files clock
  step s action := some (s.perform localtime action).state

/-- No record of the logger is in the files. -/
def Untouched (files : Directory Text Piece) : Prop :=
  ∀ name piece, files.Holds name piece → piece.ticket = none

/-- The calls behind one `open`. -/
def logging : TransitionSystem State Action where
  initial s := ∃ files clock filename, Untouched files ∧
    s = ((State.fresh files clock).openFile filename).state
  step s action :=
    match action with
    | .openFile _ => none
    | action => some (s.perform localtime action).state

end Logger

end CppProjects
