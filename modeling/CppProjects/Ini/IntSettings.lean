import CppProjects.Ini.IniCalls

/-!
# Integer settings

A setting that is given as an `int` is to be printed by `Value`, saved, loaded and
read back by `atoi`.  `Value::operator=(int)` prints the number and compares the
result with what the `Value` holds, where it should assign.
-/

namespace CppProjects

open CInt

/-! ## Numbers as texts -/

/-- `ss << value`. -/
def decimal (value : ℤ) : Text :=
  if value < 0 then '-' :: Nat.toDigits 10 value.natAbs else Nat.toDigits 10 value.natAbs

/-- The characters `atoi` skips. -/
def isSpace (c : Char) : Bool :=
  c = ' ' || c = '\t' || c = '\n' || c = '\x0b' || c = '\x0c' || c = '\r'

/-- The number that the digits at the front of the text are. -/
def leadingNumber (text : Text) : ℤ := Nat.ofDigitChars 10 (text.takeWhile Char.isDigit) 0

/-- `strtol` gives the nearest `long`. -/
def toLong (value : ℤ) : ℤ := max (-(2 ^ 63)) (min value (2 ^ 63 - 1))

def atoi (text : Text) : ℤ :=
  match text.dropWhile isSpace with
  | '-' :: rest => toInt (toLong (-leadingNumber rest))
  | '+' :: rest => toInt (toLong (leadingNumber rest))
  | rest => toInt (toLong (leadingNumber rest))

namespace Value

/-- `Value::operator=(int)`. -/
def assignInt (self : Value) (value : ℤ) : Value :=
  let ss := decimal value
  -- `m_value == ss.str();` is a comparison, and its result is dropped
  let _equal := self.mValue == ss
  self

/-- `Value::Value(int)`. -/
def ofInt (value : ℤ) : Value := assignInt ⟨[]⟩ value

/-- `Value::operator int`. -/
def toInt (self : Value) : ℤ := atoi self.mValue

end Value

namespace IniFile

/-- `set` of a value, `save`, `load` into another `IniFile` and `get`. -/
def reload (file : IniFile) (sectionName key : Text) (value : Value) : Except Failure Value := do
  let file ← load fresh (file.set sectionName key value).str
  return (file.get sectionName key).1

/-- `reload` of an `int`, converted back. -/
def reloadInt (file : IniFile) (sectionName key : Text) (n : ℤ) : Except Failure ℤ := do
  let value ← file.reload sectionName key (.ofInt n)
  return value.toInt

/-! ## The conversions -/

theorem atoi_nil : atoi [] = 0 := by decide

theorem isSpace_of_isDigit {c : Char} (hdigit : c.isDigit) : isSpace c = false := by
  by_contra hspace
  simp only [isSpace, Bool.or_eq_true, decide_eq_true_eq, Bool.not_eq_false] at hspace
  rcases hspace with ((((rfl | rfl) | rfl) | rfl) | rfl) | rfl <;> exact absurd hdigit (by decide)

theorem leadingNumber_toDigits (m : ℕ) : leadingNumber (Nat.toDigits 10 m) = m := by
  have hall : (Nat.toDigits 10 m).takeWhile Char.isDigit = Nat.toDigits 10 m :=
    List.takeWhile_eq_self_iff.mpr fun c hmem =>
      Nat.isDigit_of_mem_toDigits (by decide) (by decide) hmem
  rw [leadingNumber, hall, Nat.ofDigitChars_ten_toDigits]

/-- Digits without a sign. -/
theorem atoi_toDigits (m : ℕ) : atoi (Nat.toDigits 10 m) = CInt.toInt (toLong m) := by
  obtain ⟨c, rest, hc⟩ := List.exists_cons_of_ne_nil (Nat.toDigits_ne_nil (b := 10) (n := m))
  have hdigit : c.isDigit := by
    refine Nat.isDigit_of_mem_toDigits (b := 10) (n := m) (by decide) (by decide) ?_
    rw [hc]
    exact List.mem_cons_self
  have hfront : (c :: rest).dropWhile isSpace = c :: rest :=
    List.dropWhile_cons_of_neg (by simp [isSpace_of_isDigit hdigit])
  rw [← leadingNumber_toDigits m, hc, atoi, hfront]
  split
  next heq =>
    obtain ⟨rfl, -⟩ := List.cons.inj heq
    exact absurd hdigit (by decide)
  next heq =>
    obtain ⟨rfl, -⟩ := List.cons.inj heq
    exact absurd hdigit (by decide)
  · rfl

theorem toLong_of_fitsInt {value : ℤ} (hvalue : FitsInt value) : toLong value = value := by
  obtain ⟨hlow, hhigh⟩ := hvalue
  rw [toLong]
  omega

/-- `atoi` reads every printed `int`. -/
theorem atoi_decimal {n : ℤ} (hn : FitsInt n) : atoi (decimal n) = n := by
  have hlong : CInt.toInt (toLong n) = n := by rw [toLong_of_fitsInt hn, toInt_eq_self hn]
  rw [decimal]
  split_ifs with hneg
  · have hvalue : -((n.natAbs : ℕ) : ℤ) = n := by omega
    have hsign : atoi ('-' :: Nat.toDigits 10 n.natAbs) =
        CInt.toInt (toLong (-leadingNumber (Nat.toDigits 10 n.natAbs))) := rfl
    rw [hsign, leadingNumber_toDigits, hvalue, hlong]
  · have hvalue : ((n.natAbs : ℕ) : ℤ) = n := by omega
    rw [atoi_toDigits, hvalue, hlong]

/-! ## Reloading -/

variable {file : IniFile} {sectionName key : Text} {value : Value}

theorem printable_set (hprintable : Printable file.mSections) (hname : NameOk sectionName)
    (hkey : KeyOk key) (hvalue : ValueOk value.mValue) :
    Printable (file.set sectionName key value).mSections := by
  intro name entries hfind
  rw [set] at hfind
  dsimp only at hfind
  rw [OrderedMap.insert_index, OrderedMap.find?_insert, OrderedMap.index_fst] at hfind
  split_ifs at hfind with hsection
  · subst hsection
    refine ⟨hname, fun other stored hstored => ?_⟩
    rw [← Option.some.inj hfind, OrderedMap.find?_insert] at hstored
    split_ifs at hstored with hother
    · rw [hother, ← Option.some.inj hstored]
      exact ⟨hkey, hvalue⟩
    · cases hold : file.mSections.find? name with
      | none => simp [hold] at hstored
      | some old =>
          rw [hold] at hstored
          exact (hprintable _ _ hold).2 other stored hstored
  · exact hprintable name entries hfind

/-- What is printed on lines of its own comes back. -/
theorem reload_of_printable (hprintable : Printable file.mSections) (hname : NameOk sectionName)
    (hkey : KeyOk key) (hvalue : ValueOk value.mValue) :
    file.reload sectionName key value = .ok value := by
  rw [reload, load_str_of_printable _ (printable_set hprintable hname hkey hvalue), ok_bind, get_fst,
    valueAt?_set, if_pos ⟨rfl, rfl⟩]
  rfl

theorem valueOk_decimal {n : ℤ} (hn : FitsInt n) : ValueOk (decimal n) := by
  have hchars : ∀ c ∈ decimal n, isBlank c = false := by
    intro c hmem
    have hdigits : ∀ d ∈ Nat.toDigits 10 n.natAbs, isBlank d = false := by
      intro d hd
      have hspace := isSpace_of_isDigit (Nat.isDigit_of_mem_toDigits (by decide) (by decide) hd)
      simp only [isSpace, Bool.or_eq_false_iff] at hspace
      simp only [isBlank, hspace, Bool.or_self]
    rw [decimal] at hmem
    split_ifs at hmem
    · rcases List.mem_cons.mp hmem with rfl | hd
      · decide
      · exact hdigits c hd
    · exact hdigits c hmem
  have hlength : (Nat.toDigits 10 n.natAbs).length ≤ 10 := by
    rw [Nat.length_toDigits_le_iff (by decide) (by decide)]
    obtain ⟨hlow, hhigh⟩ := hn
    omega
  refine ⟨⟨fun c hc => ?_, fun c hc => ?_⟩, fun hmem => ?_, ?_⟩
  · exact hchars c (List.mem_of_mem_head? hc)
  · exact hchars c (List.mem_of_mem_getLast? hc)
  · exact absurd (hchars _ hmem) (by decide)
  · rw [decimal, maxSize]
    split_ifs
    · rw [List.length_cons]
      omega
    · omega

/-- A number that is set as the text of it comes back. -/
theorem reload_decimal {n : ℤ} (hn : FitsInt n) (hprintable : Printable file.mSections)
    (hname : NameOk sectionName) (hkey : KeyOk key) :
    (file.reload sectionName key ⟨decimal n⟩).map Value.toInt = .ok n := by
  have hvalue : ValueOk (⟨decimal n⟩ : Value).mValue := valueOk_decimal hn
  rw [reload_of_printable hprintable hname hkey hvalue]
  exact congrArg Except.ok (atoi_decimal hn)

/-! ## An empty value under any name -/

/-- A name without separators and line breaks, as long as a string can be. -/
structure Clean (text : Text) : Prop where
  trimmed : TrimmedBy isBlank text
  noSeparator : '=' ∉ text
  noOpening : '[' ∉ text
  noBracket : ']' ∉ text
  oneLine : '\n' ∉ text
  fits : text.length < maxSize

/-- Where the bracket and the sign stand, `load` can compute the bounds of the name
and of the value: neither `int` overflows, and the value begins on the line. -/
def Loads (sectionName key : Text) : Prop :=
  CInt.toInt (sectionName.length + 1 : ℕ) ≠ -(2 ^ 31) ∧
    -1 ≤ CInt.toInt (keyPart key).length ∧ CInt.toInt (keyPart key).length < 2 ^ 31 - 1

instance (sectionName key : Text) : Decidable (Loads sectionName key) :=
  inferInstanceAs (Decidable (_ ∧ _ ∧ _))

variable (state : LoadState)

/-- A header opens some section, unless the position of its bracket overflows. -/
theorem loadLine_anyHeader (hname : ']' ∉ sectionName) :
    (CInt.toInt (sectionName.length + 1 : ℕ) = -(2 ^ 31) →
      ∃ failure, loadLine state (headerLine sectionName) = .error failure) ∧
    (CInt.toInt (sectionName.length + 1 : ℕ) ≠ -(2 ^ 31) →
      ∃ name, loadLine state (headerLine sectionName) = .ok (state.openSection name)) := by
  have hfind : findFirstOf ']' (headerLine sectionName) = sectionName.length + 1 :=
    findFirstOf_append ('[' :: sectionName) [] (by simpa using hname)
  have hint : FitsInt (CInt.toInt (sectionName.length + 1 : ℕ)) := (toInt_spec _).1
  have hheader : loadLine state (headerLine sectionName) = loadHeader state (headerLine sectionName) := by
    rw [loadLine, trim_headerLine]
    rfl
  rw [hheader, loadHeader, hfind]
  generalize CInt.toInt (sectionName.length + 1 : ℕ) = pos at hint ⊢
  constructor
  · intro hoverflow
    rw [hoverflow, intExpr, if_neg (by decide)]
    exact ⟨.overflow, rfl⟩
  · intro hnone
    have hfits : FitsInt (pos - 1) := by
      have hlow := hint.1
      have hhigh := hint.2
      exact ⟨by omega, by omega⟩
    rw [intExpr_of_fits hfits, ok_bind, substr_of_le (by simp [headerLine])]
    exact ⟨_, rfl⟩

/-- A printed entry without a value sets some key, unless the position of its sign
overflows or leaves the line; if it sets the key that was printed, then to nothing. -/
theorem loadAssignment_empty {part : Text} (hpart : '=' ∉ part) (hfits : part.length ≤ maxSize)
    (htrimmed : TrimmedBy isBlank (part ++ ['='])) (hlength : part.length ≤ (trim part).length + 1) :
    (-1 ≤ CInt.toInt part.length ∧ CInt.toInt part.length < 2 ^ 31 - 1 →
      ∃ key value, loadAssignment state (part ++ ['=']) = .ok (state.assign key value) ∧
        (key = trim part → value = [])) ∧
    (¬ (-1 ≤ CInt.toInt part.length ∧ CInt.toInt part.length < 2 ^ 31 - 1) →
      ∃ failure, loadAssignment state (part ++ ['=']) = .error failure) := by
  have hfind : findFirstOf '=' (part ++ ['=']) = part.length := findFirstOf_append part [] hpart
  have hint : FitsInt (CInt.toInt part.length) := (toInt_spec _).1
  have hturns : ∃ turns, (part.length : ℤ) = CInt.toInt part.length + 2 ^ 32 * turns :=
    (toInt_spec _).2
  have hsize : (part ++ ['=']).length = part.length + 1 := by simp
  have hmax : part.length < 2 ^ 63 := hfits.trans_lt (by decide)
  rw [loadAssignment, hfind]
  generalize CInt.toInt part.length = pos at hint hturns ⊢
  obtain ⟨hlow, hhigh⟩ := hint
  obtain ⟨turns, hturns⟩ := hturns
  rw [substr_of_le (by omega), ok_bind]
  constructor
  · rintro ⟨hbegin, hend⟩
    have hstart : toSize (pos + 1) = (pos + 1).toNat := by
      rw [toSize]
      omega
    rw [intExpr_of_fits ⟨by omega, by omega⟩, ok_bind, hstart, substr_of_le (by omega)]
    refine ⟨_, _, rfl, fun hkey => ?_⟩
    rw [List.drop_zero] at hkey
    by_cases hwhole : pos = part.length
    · have hnil : (part ++ ['=']).drop (pos + 1).toNat = [] := List.drop_of_length_le (by omega)
      rw [hnil, List.take_nil]
      rfl
    -- a sign that is not found where it stands gives the key another length
    · rcases eq_or_lt_of_le hbegin with hnone | hfound
      · have hall : (part ++ ['=']).length ≤ toSize pos := by
          rw [toSize]
          omega
        have hself : trim (part ++ ['=']) = part ++ ['='] := trimBy_of_trimmed htrimmed
        rw [List.take_of_length_le hall, hself] at hkey
        have hsign : '=' ∈ trim part := by
          rw [← hkey]
          simp
        exact absurd (mem_of_mem_trimBy hsign) hpart
      · have hindex : toSize pos = pos.toNat := by
          rw [toSize]
          omega
        rw [hindex] at hkey
        have hsame : (trim part).length = (trim ((part ++ ['=']).take pos.toNat)).length :=
          congrArg List.length hkey.symm
        have hshort : (trim ((part ++ ['=']).take pos.toNat)).length ≤ pos.toNat :=
          (length_trimBy_le _).trans (List.length_take_le _ _)
        omega
  · intro hnone
    by_cases hoverflow : pos = 2 ^ 31 - 1
    · rw [hoverflow, intExpr, if_neg (by decide)]
      exact ⟨.overflow, rfl⟩
    · have hbehind : (part ++ ['=']).length < toSize (pos + 1) := by
        rw [toSize]
        omega
      rw [intExpr_of_fits ⟨by omega, by omega⟩, ok_bind, substr, if_pos hbehind]
      exact ⟨.outOfRange, rfl⟩

theorem loadLine_emptyEntry (hkey : Clean key) :
    (-1 ≤ CInt.toInt (keyPart key).length ∧ CInt.toInt (keyPart key).length < 2 ^ 31 - 1 →
      ∃ other value, loadLine state (entryLine (key, ⟨[]⟩)) = .ok (state.assign other value) ∧
        (other = key → value = [])) ∧
    (¬ (-1 ≤ CInt.toInt (keyPart key).length ∧ CInt.toInt (keyPart key).length < 2 ^ 31 - 1) →
      ∃ failure, loadLine state (entryLine (key, ⟨[]⟩)) = .error failure) := by
  have hline : trim (entryLine (key, ⟨[]⟩)) = keyPart key ++ ['='] :=
    trim_entryLine hkey.trimmed trimmedBy_nil
  have htrimmed : TrimmedBy isBlank (keyPart key ++ ['=']) := by
    rw [← hline]
    exact trimmedBy_trimBy _
  have hcore : trim (keyPart key) = key := trim_keyPart hkey.trimmed
  have hsign : '=' ∉ keyPart key := by
    rw [keyPart]
    split_ifs
    · simp
    · simpa using hkey.noSeparator
  have hlength : (keyPart key).length ≤ key.length + 1 := by
    rw [keyPart]
    split_ifs <;> simp
  have hload : loadLine state (entryLine (key, ⟨[]⟩)) =
      loadAssignment state (keyPart key ++ ['=']) := by
    rw [loadLine, hline]
    cases hcases : keyPart key ++ ['='] with
    | nil => simp at hcases
    | cons c rest =>
        have hc : c ≠ '[' := by
          rintro rfl
          have hmem : '[' ∈ keyPart key ++ ['='] := by
            rw [hcases]
            exact List.mem_cons_self
          rw [keyPart] at hmem
          split_ifs at hmem
          · simp at hmem
          · simp [hkey.noOpening] at hmem
        simp only [if_neg hc]
  have hempty := loadAssignment_empty state hsign
    (hlength.trans (Nat.succ_le_of_lt hkey.fits)) htrimmed (by rwa [hcore])
  rw [hcore] at hempty
  rw [hload]
  exact hempty

/-- Whatever the names, an empty value comes back empty, if `load` gets through. -/
theorem reload_empty (hname : Clean sectionName) (hkey : Clean key) :
    (Loads sectionName key → fresh.reload sectionName key ⟨[]⟩ = .ok ⟨[]⟩) ∧
    (¬ Loads sectionName key →
      ∃ failure, fresh.reload sectionName key ⟨[]⟩ = .error failure) := by
  have hset : fresh.set sectionName key ⟨[]⟩ =
      ⟨OrderedMap.empty.insert sectionName (OrderedMap.empty.insert key ⟨[]⟩)⟩ := by
    rw [set]
    dsimp only
    rw [OrderedMap.insert_index, OrderedMap.index_fst]
    rfl
  have hlines : lines (fresh.set sectionName key ⟨[]⟩).str =
      [headerLine sectionName, entryLine (key, ⟨[]⟩)] := by
    rw [hset]
    refine lines_unlines [headerLine sectionName, entryLine (key, ⟨[]⟩)] ?_
    intro line hline
    rcases List.mem_cons.mp hline with rfl | hline
    · simp [headerLine, hname.oneLine]
    · obtain rfl := List.mem_singleton.mp hline
      simp [entryLine, hkey.oneLine]
  have hheader := loadLine_anyHeader ⟨[], fresh.mSections⟩ hname.noBracket
  rw [reload, load, hlines, List.foldlM_cons]
  constructor
  · rintro ⟨hbracket, hsign⟩
    obtain ⟨name, hopened⟩ := hheader.2 hbracket
    obtain ⟨other, value, hassigned, hempty⟩ := (loadLine_emptyEntry
      (LoadState.openSection ⟨[], fresh.mSections⟩ name) hkey).1 hsign
    rw [hopened, ok_bind, List.foldlM_cons, hassigned]
    refine congrArg Except.ok (get_fst.trans ?_)
    rw [valueAt?_assign, valueAt?_openSection]
    split_ifs with hsame hsection
    · rw [hempty hsame.2.symm]
      rfl
    · rfl
    · rfl
  · intro hnot
    by_cases hbracket : CInt.toInt (sectionName.length + 1 : ℕ) = -(2 ^ 31)
    · obtain ⟨failure, hfailure⟩ := hheader.1 hbracket
      rw [hfailure]
      exact ⟨failure, rfl⟩
    · obtain ⟨name, hopened⟩ := hheader.2 hbracket
      obtain ⟨failure, hfailure⟩ := (loadLine_emptyEntry
        (LoadState.openSection ⟨[], fresh.mSections⟩ name) hkey).2
          fun hsign => hnot ⟨hbracket, hsign⟩
      rw [hopened, ok_bind, List.foldlM_cons, hfailure]
      exact ⟨failure, rfl⟩

/-! ## Integers -/

theorem toInt_ofInt (n : ℤ) : (Value.ofInt n).toInt = 0 := atoi_nil

/-- An integer setting comes back exactly if it is zero: for every map that can be
printed and names within reach of an `int`, and for a single setting under any names
that `load` gets through. -/
theorem reloadInt_iff (n : ℤ) (sectionName key : Text) :
    (∀ file : IniFile, Printable file.mSections → NameOk sectionName → KeyOk key →
      (file.reloadInt sectionName key n = .ok n ↔ n = 0)) ∧
    (Clean sectionName → Clean key →
      (fresh.reloadInt sectionName key n = .ok n ↔ n = 0 ∧ Loads sectionName key)) := by
  constructor
  · intro file hprintable hname hkey
    have hvalue : ValueOk (Value.ofInt n).mValue :=
      ⟨trimmedBy_nil, List.not_mem_nil, Nat.two_pow_pos 62⟩
    rw [reloadInt, reload_of_printable hprintable hname hkey hvalue, ok_bind, toInt_ofInt]
    exact ⟨fun heq => (Except.ok.inj heq).symm, fun heq => congrArg Except.ok heq.symm⟩
  · intro hname hkey
    obtain ⟨hloaded, hfailed⟩ := reload_empty hname hkey
    have hofInt : Value.ofInt n = ⟨[]⟩ := rfl
    rw [reloadInt, hofInt]
    by_cases hloads : Loads sectionName key
    · rw [hloaded hloads, ok_bind, and_iff_left hloads]
      exact ⟨fun heq => (Except.ok.inj heq).symm, fun heq => congrArg Except.ok heq.symm⟩
    · obtain ⟨failure, hfailure⟩ := hfailed hloads
      rw [hfailure]
      exact iff_of_false (fun heq => (nomatch heq)) fun hboth => hloads hboth.2

/-- A `timeout` of zero. -/
theorem reloadInt_iff_zero : fresh.reloadInt "server".toList "timeout".toList 0 = .ok 0 := by
  have hname : Clean "server".toList :=
    ⟨by decide, by decide, by decide, by decide, by decide, by decide⟩
  have hkey : Clean "timeout".toList :=
    ⟨by decide, by decide, by decide, by decide, by decide, by decide⟩
  exact ((reloadInt_iff 0 "server".toList "timeout".toList).2 hname hkey).mpr ⟨rfl, by decide⟩

/-- The `timeout` of the demo program. -/
theorem reloadInt_timeout : fresh.reloadInt "server".toList "timeout".toList 12 = .ok 0 ∧
    ¬ fresh.reloadInt "server".toList "timeout".toList 12 = .ok 12 := by decide

end IniFile

end CppProjects
