import CppProjects.Core.OrderedMap
import Mathlib.Data.Char
import Mathlib.Tactic

/-!
# JSON texts

Trees and a reader for the grammar of JSON texts.  The members of an object are
kept in the order of their names, and a later member replaces an earlier one of
the same name.  A number without fraction and exponent is an integer; `decimal`
says what the other numbers denote.
-/

namespace CppProjects

inductive JsonTree (δ : Type)
  | null
  | bool (value : Bool)
  | int (value : ℤ)
  | double (value : δ)
  | string (text : List Char)
  | array (elements : List (JsonTree δ))
  | object (members : List (List Char × JsonTree δ))

namespace JsonTree

variable {δ : Type}

/-- Induction with a hypothesis for each element and each member. -/
theorem induction {P : JsonTree δ → Prop} (null : P .null) (bool : ∀ value, P (.bool value))
    (int : ∀ value, P (.int value)) (double : ∀ value, P (.double value))
    (string : ∀ text, P (.string text)) (array : ∀ elements, (∀ t ∈ elements, P t) → P (.array elements))
    (object : ∀ members, (∀ member ∈ members, P member.2) → P (.object members)) : ∀ t, P t := by
  apply JsonTree.rec (motive_1 := P) (motive_2 := fun elements => ∀ t ∈ elements, P t)
    (motive_3 := fun members => ∀ member ∈ members, P member.2) (motive_4 := fun member => P member.2)
  · exact null
  · exact bool
  · exact int
  · exact double
  · exact string
  · exact array
  · exact object
  · exact fun _ hmem => absurd hmem List.not_mem_nil
  · exact fun t elements ht helements => List.forall_mem_cons.mpr ⟨ht, helements⟩
  · exact fun _ hmem => absurd hmem List.not_mem_nil
  · exact fun member members hmember hmembers => List.forall_mem_cons.mpr ⟨hmember, hmembers⟩
  · exact fun _ _ ht => ht

/-! ## Predicates -/

mutual

/-- `leaf` holds of everything but arrays and objects, and `names` of the names of
each object. -/
def All (leaf : JsonTree δ → Prop) (names : List (List Char) → Prop) : JsonTree δ → Prop
  | .array elements => AllElements leaf names elements
  | .object members => names (members.map Prod.fst) ∧ AllMembers leaf names members
  | t => leaf t

def AllElements (leaf : JsonTree δ → Prop) (names : List (List Char) → Prop) :
    List (JsonTree δ) → Prop
  | [] => True
  | t :: elements => t.All leaf names ∧ AllElements leaf names elements

def AllMembers (leaf : JsonTree δ → Prop) (names : List (List Char) → Prop) :
    List (List Char × JsonTree δ) → Prop
  | [] => True
  | (_, t) :: members => t.All leaf names ∧ AllMembers leaf names members

end

variable {leaf : JsonTree δ → Prop} {names : List (List Char) → Prop}

theorem allElements_iff {elements : List (JsonTree δ)} :
    AllElements leaf names elements ↔ ∀ t ∈ elements, t.All leaf names := by
  induction elements with
  | nil => simp [AllElements]
  | cons t elements ih => rw [AllElements, ih, List.forall_mem_cons]

theorem allMembers_iff {members : List (List Char × JsonTree δ)} :
    AllMembers leaf names members ↔ ∀ member ∈ members, member.2.All leaf names := by
  induction members with
  | nil => simp [AllMembers]
  | cons member members ih => rw [AllMembers, ih, List.forall_mem_cons]

end JsonTree

namespace JsonText

/-! ## Strings -/

/-- The characters that stand for themselves between quotes. -/
def Plain (c : Char) : Prop := c ≠ '"' ∧ c ≠ '\\' ∧ 32 ≤ c.toNat

instance (c : Char) : Decidable (Plain c) := inferInstanceAs (Decidable (_ ∧ _ ∧ _))

def hexDigit? (c : Char) : Option ℕ :=
  if '0' ≤ c ∧ c ≤ '9' then some (c.toNat - '0'.toNat)
  else if 'a' ≤ c ∧ c ≤ 'f' then some (c.toNat - 'a'.toNat + 10)
  else if 'A' ≤ c ∧ c ≤ 'F' then some (c.toNat - 'A'.toNat + 10)
  else none

/-- Four hexadecimal digits. -/
def readHex : List Char → Option (ℕ × List Char)
  | a :: b :: c :: d :: rest => do
      let a ← hexDigit? a
      let b ← hexDigit? b
      let c ← hexDigit? c
      let d ← hexDigit? d
      some (((a * 16 + b) * 16 + c) * 16 + d, rest)
  | _ => none

/-- What is behind `\u`: a character, or a pair of surrogates. -/
def readUnicode (text : List Char) : Option (Char × List Char) := do
  let (code, rest) ← readHex text
  if 0xD800 ≤ code ∧ code < 0xDC00 then
    match rest with
    | '\\' :: 'u' :: rest => do
        let (low, rest) ← readHex rest
        if 0xDC00 ≤ low ∧ low < 0xE000 then
          some (Char.ofNat (0x10000 + (code - 0xD800) * 0x400 + (low - 0xDC00)), rest)
        else none
    | _ => none
  else if 0xDC00 ≤ code ∧ code < 0xE000 then none
  else some (Char.ofNat code, rest)

/-- What is behind a backslash. -/
def readEscape : List Char → Option (Char × List Char)
  | [] => none
  | c :: rest =>
      if c = 'u' then readUnicode rest
      else if c = '"' ∨ c = '\\' ∨ c = '/' then some (c, rest)
      else if c = 'b' then some ('\x08', rest)
      else if c = 'f' then some ('\x0c', rest)
      else if c = 'n' then some ('\n', rest)
      else if c = 'r' then some ('\r', rest)
      else if c = 't' then some ('\t', rest)
      else none

/-- What is behind an opening quote, up to the closing one. -/
def readString : ℕ → List Char → Option (List Char × List Char)
  | 0, _ => none
  | _ + 1, [] => none
  | fuel + 1, c :: rest =>
      if c = '"' then some ([], rest)
      else if c = '\\' then do
        let (c, rest) ← readEscape rest
        let (text, rest) ← readString fuel rest
        some (c :: text, rest)
      else if 32 ≤ c.toNat then do
        let (text, rest) ← readString fuel rest
        some (c :: text, rest)
      else none

/-! ## Numbers -/

/-- One digit or more. -/
def readDigits (text : List Char) : Option (List Char × List Char) :=
  match text.span Char.isDigit with
  | ([], _) => none
  | read => some read

/-- A fraction, if there is one. -/
def readFraction : List Char → Option (List Char × List Char)
  | '.' :: rest => (readDigits rest).map fun read => ('.' :: read.1, read.2)
  | rest => some ([], rest)

/-- An exponent, if there is one. -/
def readExponent : List Char → Option (List Char × List Char)
  | [] => some ([], [])
  | c :: rest =>
      if c = 'e' ∨ c = 'E' then
        match rest with
        | [] => none
        | sign :: digits =>
            if sign = '+' ∨ sign = '-' then
              (readDigits digits).map fun read => (c :: sign :: read.1, read.2)
            else (readDigits rest).map fun read => (c :: read.1, read.2)
      else some ([], c :: rest)

variable {δ : Type} (decimal : List Char → δ)

/-- A number behind its sign. -/
def readUnsigned (negative : Bool) (text : List Char) : Option (JsonTree δ × List Char) := do
  let (digits, rest) ← readDigits text
  if digits.head? = some '0' ∧ digits.length ≠ 1 then none
  else do
    let (fraction, rest) ← readFraction rest
    let (exponent, rest) ← readExponent rest
    if fraction = [] ∧ exponent = [] then
      let magnitude : ℤ := Nat.ofDigitChars 10 digits 0
      some (.int (if negative then -magnitude else magnitude), rest)
    else
      let sign := if negative then ['-'] else []
      some (.double (decimal (sign ++ digits ++ fraction ++ exponent)), rest)

def readNumber : List Char → Option (JsonTree δ × List Char)
  | '-' :: rest => readUnsigned decimal true rest
  | text => readUnsigned decimal false text

/-! ## Values -/

def isBlank (c : Char) : Bool := c = ' ' || c = '\t' || c = '\n' || c = '\r'

def skipBlanks (text : List Char) : List Char := text.dropWhile isBlank

/-- What is behind the next character, if that is `c`. -/
def expect (c : Char) (text : List Char) : Option (List Char) :=
  if (skipBlanks text).head? = some c then some (skipBlanks text).tail else none

/-- A later member replaces an earlier one. -/
def collect (members : List (List Char × JsonTree δ)) : List (List Char × JsonTree δ) :=
  members.foldl (fun entries member => OrderedMap.insertEntry member.1 member.2 entries) []

mutual

def readValue : ℕ → List Char → Option (JsonTree δ × List Char)
  | 0, _ => none
  | fuel + 1, text =>
      match skipBlanks text with
      | [] => none
      | c :: rest =>
          if c = '"' then (readString (rest.length + 1) rest).map fun read => (.string read.1, read.2)
          else if c = '[' then
            match expect ']' rest with
            | some rest => some (.array [], rest)
            | none => (readElements fuel rest).map fun read => (.array read.1, read.2)
          else if c = '{' then
            match expect '}' rest with
            | some rest => some (.object [], rest)
            | none => (readMembers fuel rest).map fun read => (.object (collect read.1), read.2)
          else if c = 'n' then
            if rest.take 3 = ['u', 'l', 'l'] then some (.null, rest.drop 3) else none
          else if c = 't' then
            if rest.take 3 = ['r', 'u', 'e'] then some (.bool true, rest.drop 3) else none
          else if c = 'f' then
            if rest.take 4 = ['a', 'l', 's', 'e'] then some (.bool false, rest.drop 4) else none
          else readNumber decimal (c :: rest)

/-- The elements up to the closing bracket; there is one or more. -/
def readElements : ℕ → List Char → Option (List (JsonTree δ) × List Char)
  | 0, _ => none
  | fuel + 1, text => do
      let (t, rest) ← readValue fuel text
      match skipBlanks rest with
      | ',' :: rest => do
          let (elements, rest) ← readElements fuel rest
          some (t :: elements, rest)
      | ']' :: rest => some ([t], rest)
      | _ => none

/-- The members up to the closing brace; there is one or more. -/
def readMembers : ℕ → List Char → Option (List (List Char × JsonTree δ) × List Char)
  | 0, _ => none
  | fuel + 1, text => do
      let quoted ← expect '"' text
      let (name, rest) ← readString (quoted.length + 1) quoted
      let rest ← expect ':' rest
      let (t, rest) ← readValue fuel rest
      match skipBlanks rest with
      | ',' :: rest => do
          let (members, rest) ← readMembers fuel rest
          some ((name, t) :: members, rest)
      | '}' :: rest => some ([(name, t)], rest)
      | _ => none

end

/-- The tree a text denotes, if the text is well formed. -/
def read (text : List Char) : Option (JsonTree δ) := do
  let (t, rest) ← readValue decimal (text.length + 1) text
  if skipBlanks rest = [] then some t else none

end JsonText

end CppProjects
