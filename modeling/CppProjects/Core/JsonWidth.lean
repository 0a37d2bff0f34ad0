import CppProjects.Core.JsonText
import Mathlib.Data.List.TakeWhile

/-!
# The length of JSON texts

`width t` bounds the length of every text that denotes `t` from below: a character
that cannot stand for itself between quotes takes two places.
-/

namespace CppProjects

namespace JsonText

variable {δ : Type}

/-! ## Widths -/

def charWidth (c : Char) : ℕ := if Plain c then 1 else 2

def textWidth (text : List Char) : ℕ := (text.map charWidth).sum

/-- Decimal digits, with a sign where the number is negative. -/
def showInt (i : ℤ) : List Char := (if i < 0 then ['-'] else []) ++ Nat.toDigits 10 i.natAbs

mutual

def width : JsonTree δ → ℕ
  | .null => 4
  | .bool value => if value then 4 else 5
  | .int value => (showInt value).length
  | .double _ => 1
  | .string text => textWidth text + 2
  | .array elements => 1 + max 1 (elementsWidth elements)
  | .object members => 1 + max 1 (membersWidth members)

/-- Each element has a comma or a bracket behind it. -/
def elementsWidth : List (JsonTree δ) → ℕ
  | [] => 0
  | t :: elements => width t + 1 + elementsWidth elements

def membersWidth : List (List Char × JsonTree δ) → ℕ
  | [] => 0
  | (name, t) :: members => textWidth name + 3 + width t + 1 + membersWidth members

end

theorem length_le_textWidth (text : List Char) : text.length ≤ textWidth text := by
  induction text with
  | nil => exact Nat.le_refl 0
  | cons c text ih =>
      have hchar : 1 ≤ charWidth c := by
        rw [charWidth]
        split_ifs <;> decide
      rw [textWidth, List.map_cons, List.sum_cons, ← textWidth, List.length_cons]
      omega

theorem textWidth_eq_length_iff {text : List Char} :
    textWidth text = text.length ↔ ∀ c ∈ text, Plain c := by
  induction text with
  | nil => simp [textWidth]
  | cons c text ih =>
      have hrest := length_le_textWidth text
      rw [textWidth, List.map_cons, List.sum_cons, ← textWidth, List.length_cons,
        List.forall_mem_cons, ← ih, charWidth]
      split_ifs with hplain
      · simp only [hplain, true_and]
        omega
      · simp only [hplain, false_and, iff_false]
        omega

theorem membersWidth_insertEntry (name : List Char) (t : JsonTree δ)
    (members : List (List Char × JsonTree δ)) :
    membersWidth (OrderedMap.insertEntry name t members) ≤
      membersWidth members + (textWidth name + 3 + width t + 1) := by
  induction members with
  | nil =>
      rw [OrderedMap.insertEntry, membersWidth, membersWidth]
      exact (Nat.add_comm _ _).le
  | cons member members ih =>
      obtain ⟨other, t'⟩ := member
      rw [OrderedMap.insertEntry]
      split_ifs
      · rw [membersWidth]
        omega
      · rw [membersWidth, membersWidth]
        omega
      · rw [membersWidth, membersWidth]
        omega

theorem membersWidth_collect (members : List (List Char × JsonTree δ)) :
    membersWidth (collect members) ≤ membersWidth members := by
  have hfold : ∀ (members entries : List (List Char × JsonTree δ)),
      membersWidth (members.foldl
        (fun entries member => OrderedMap.insertEntry member.1 member.2 entries) entries) ≤
          membersWidth entries + membersWidth members := by
    intro members
    induction members with
    | nil => exact fun entries => Nat.le_add_right _ _
    | cons member members ih =>
        intro entries
        have hrest := ih (OrderedMap.insertEntry member.1 member.2 entries)
        have hinsert := membersWidth_insertEntry member.1 member.2 entries
        rw [List.foldl_cons, membersWidth]
        omega
  have hall := hfold members []
  rwa [membersWidth, Nat.zero_add] at hall

/-! ## What the parts of the reader consume -/

theorem length_skipBlanks_le (text : List Char) : (skipBlanks text).length ≤ text.length :=
  (List.dropWhile_sublist isBlank).length_le

variable {text rest : List Char}

theorem readHex_length {code : ℕ} (hread : readHex text = some (code, rest)) :
    rest.length + 4 = text.length := by
  rw [readHex.eq_def] at hread
  split at hread
  · simp only [Option.bind_eq_bind, Option.bind_eq_some_iff, Option.some.injEq, Prod.mk.injEq] at hread
    obtain ⟨_, _, _, _, _, _, _, _, _, rfl⟩ := hread
    rfl
  · cases hread

theorem readUnicode_length {c : Char} (hread : readUnicode text = some (c, rest)) :
    rest.length + 4 ≤ text.length := by
  rw [readUnicode, Option.bind_eq_bind, Option.bind_eq_some_iff] at hread
  obtain ⟨⟨code, middle⟩, hhex, hread⟩ := hread
  have hlength := readHex_length hhex
  dsimp only at hread
  split_ifs at hread
  · split at hread
    · rw [Option.bind_eq_some_iff] at hread
      obtain ⟨⟨low, last⟩, hlow, hread⟩ := hread
      have hlast := readHex_length hlow
      dsimp only at hread
      split_ifs at hread
      obtain ⟨-, rfl⟩ := Prod.mk.inj (Option.some.inj hread)
      simp only [List.length_cons] at hlength
      omega
    · cases hread
  · obtain ⟨-, rfl⟩ := Prod.mk.inj (Option.some.inj hread)
    exact hlength.le

theorem readEscape_length {c : Char} (hread : readEscape text = some (c, rest)) :
    rest.length + 1 ≤ text.length := by
  cases text with
  | nil => cases hread
  | cons first text =>
      rw [readEscape] at hread
      split_ifs at hread
      · have hlength := readUnicode_length hread
        rw [List.length_cons]
        omega
      all_goals
        obtain ⟨-, rfl⟩ := Prod.mk.inj (Option.some.inj hread)
        rfl

theorem readString_width {fuel : ℕ} {s : List Char} (hread : readString fuel text = some (s, rest)) :
    textWidth s + 1 + rest.length ≤ text.length := by
  induction fuel generalizing text s with
  | zero => cases hread
  | succ fuel ih =>
      cases text with
      | nil => cases hread
      | cons c text =>
          rw [readString] at hread
          split_ifs at hread with hquote hescape hplain
          · obtain ⟨rfl, rfl⟩ := Prod.mk.inj (Option.some.inj hread)
            simp [textWidth, Nat.add_comm]
          · simp only [Option.bind_eq_bind, Option.bind_eq_some_iff, Prod.exists] at hread
            obtain ⟨c', middle, hmiddle, s', rest', hrest, heq⟩ := hread
            obtain ⟨rfl, rfl⟩ := Prod.mk.inj (Option.some.inj heq)
            have hfirst := readEscape_length hmiddle
            have hothers := ih hrest
            have hchar : charWidth c' ≤ 2 := by
              rw [charWidth]
              split_ifs <;> decide
            rw [textWidth, List.map_cons, List.sum_cons, ← textWidth, List.length_cons]
            omega
          · simp only [Option.bind_eq_bind, Option.bind_eq_some_iff, Prod.exists] at hread
            obtain ⟨s', rest', hrest, heq⟩ := hread
            obtain ⟨rfl, rfl⟩ := Prod.mk.inj (Option.some.inj heq)
            have hothers := ih hrest
            have hchar : charWidth c = 1 := if_pos ⟨hquote, hescape, hplain⟩
            rw [textWidth, List.map_cons, List.sum_cons, ← textWidth, List.length_cons, hchar]
            omega

theorem readDigits_eq {digits : List Char} (hread : readDigits text = some (digits, rest)) :
    text = digits ++ rest ∧ digits ≠ [] ∧ ∀ c ∈ digits, c.isDigit := by
  rw [readDigits, List.span_eq_takeWhile_dropWhile] at hread
  split at hread
  · cases hread
  next hne =>
    obtain ⟨rfl, rfl⟩ := Prod.mk.inj (Option.some.inj hread)
    refine ⟨(List.takeWhile_append_dropWhile).symm, fun hnil => hne _ (by rw [hnil]), ?_⟩
    exact fun c hmem => List.mem_takeWhile_imp hmem

theorem readFraction_length {fraction : List Char} (hread : readFraction text = some (fraction, rest)) :
    rest.length ≤ text.length := by
  rw [readFraction.eq_def] at hread
  split at hread
  next digits =>
    obtain ⟨⟨read, last⟩, hdigits, heq⟩ := Option.map_eq_some_iff.mp hread
    obtain ⟨-, rfl⟩ := Prod.mk.inj heq
    rw [(readDigits_eq hdigits).1, List.length_cons, List.length_append]
    exact Nat.le_trans (Nat.le_add_left _ _) (Nat.le_succ _)
  · obtain ⟨-, rfl⟩ := Prod.mk.inj (Option.some.inj hread)
    exact Nat.le_refl _

theorem readExponent_length {exponent : List Char} (hread : readExponent text = some (exponent, rest)) :
    rest.length ≤ text.length := by
  rw [readExponent.eq_def] at hread
  split at hread
  · obtain ⟨-, rfl⟩ := Prod.mk.inj (Option.some.inj hread)
    exact Nat.le_refl _
  · split_ifs at hread
    · split at hread
      · cases hread
      · split_ifs at hread
        all_goals
          obtain ⟨⟨read, last⟩, hdigits, heq⟩ := Option.map_eq_some_iff.mp hread
          obtain ⟨-, rfl⟩ := Prod.mk.inj heq
          have hlength := congrArg List.length (readDigits_eq hdigits).1
          rw [List.length_append] at hlength
          simp only [List.length_cons] at hlength ⊢
          omega
    · obtain ⟨-, rfl⟩ := Prod.mk.inj (Option.some.inj hread)
      exact Nat.le_refl _

theorem ofDigitChars_lt (digits : List Char) (hdigits : ∀ c ∈ digits, c.isDigit) (start : ℕ) :
    Nat.ofDigitChars 10 digits start < (start + 1) * 10 ^ digits.length := by
  induction digits generalizing start with
  | nil => simp
  | cons c digits ih =>
      obtain ⟨hc, hrest⟩ := List.forall_mem_cons.mp hdigits
      have hdigit : c.toNat - '0'.toNat < 10 := by
        rw [Char.isDigit, Bool.and_eq_true, decide_eq_true_eq, decide_eq_true_eq] at hc
        have hlast : c.toNat ≤ '9'.toNat := hc.2
        have hfirst : '9'.toNat = 57 ∧ '0'.toNat = 48 := by decide
        omega
      rw [Nat.ofDigitChars_cons, List.length_cons, Nat.pow_succ]
      calc Nat.ofDigitChars 10 digits (10 * start + (c.toNat - '0'.toNat))
          < (10 * start + (c.toNat - '0'.toNat) + 1) * 10 ^ digits.length := ih hrest _
        _ ≤ ((start + 1) * 10) * 10 ^ digits.length := Nat.mul_le_mul_right _ (by omega)
        _ = (start + 1) * (10 ^ digits.length * 10) := by ring

theorem length_showInt_le (digits : List Char) (hne : digits ≠ []) (hdigits : ∀ c ∈ digits, c.isDigit)
    (negative : Bool) :
    (showInt (if negative then -(Nat.ofDigitChars 10 digits 0 : ℤ)
      else Nat.ofDigitChars 10 digits 0)).length ≤
        (if negative then 1 else 0) + digits.length := by
  have hdecimal : (Nat.toDigits 10 (Nat.ofDigitChars 10 digits 0)).length ≤ digits.length := by
    rw [Nat.length_toDigits_le_iff (by decide) (List.length_pos_iff.mpr hne)]
    simpa using ofDigitChars_lt digits hdigits 0
  cases negative with
  | false =>
      have hsign : ¬ (Nat.ofDigitChars 10 digits 0 : ℤ) < 0 := by omega
      simpa [showInt, hsign] using hdecimal
  | true =>
      rw [if_pos rfl, if_pos rfl, showInt, Int.natAbs_neg, Int.natAbs_natCast, List.length_append]
      split_ifs
      · exact Nat.add_le_add_left hdecimal 1
      · exact Nat.add_le_add (Nat.zero_le 1) hdecimal

variable {decimal : List Char → δ} {t : JsonTree δ}

theorem readUnsigned_width {negative : Bool}
    (hread : readUnsigned decimal negative text = some (t, rest)) :
    width t + rest.length ≤ (if negative then 1 else 0) + text.length := by
  rw [readUnsigned, Option.bind_eq_bind, Option.bind_eq_some_iff] at hread
  obtain ⟨⟨digits, middle⟩, hdigits, hread⟩ := hread
  dsimp only at hread
  by_cases hzero : digits.head? = some '0' ∧ digits.length ≠ 1
  · rw [if_pos hzero] at hread
    cases hread
  · rw [if_neg hzero] at hread
    simp only [Option.bind_eq_some_iff, Prod.exists] at hread
    obtain ⟨fraction, middle', hfraction, exponent, middle'', hexponent, hread⟩ := hread
    obtain ⟨rfl, hne, hall⟩ := readDigits_eq hdigits
    have hlength := readFraction_length hfraction
    have hlength' := readExponent_length hexponent
    have hpos := List.length_pos_iff.mpr hne
    rw [List.length_append]
    by_cases hinteger : fraction = [] ∧ exponent = []
    · rw [if_pos hinteger] at hread
      obtain ⟨rfl, rfl⟩ := Prod.mk.inj (Option.some.inj hread)
      have hint := length_showInt_le digits hne hall negative
      rw [width]
      omega
    · rw [if_neg hinteger] at hread
      obtain ⟨rfl, rfl⟩ := Prod.mk.inj (Option.some.inj hread)
      rw [width]
      omega

theorem readNumber_width (hread : readNumber decimal text = some (t, rest)) :
    width t + rest.length ≤ text.length := by
  rw [readNumber.eq_def] at hread
  split at hread
  · have hlength := readUnsigned_width hread
    rw [List.length_cons]
    simpa [Nat.add_comm] using hlength
  · have hlength := readUnsigned_width hread
    simpa using hlength

/-! ## The bound -/

theorem take_length_le {word : List Char} {n : ℕ} (htake : text.take n = word) :
    word.length + (text.drop n).length ≤ text.length := by
  rw [← htake, ← List.length_append, List.take_append_drop]

theorem expect_length {c : Char} (hexpect : expect c text = some rest) :
    rest.length + 1 ≤ text.length := by
  have hlength := length_skipBlanks_le text
  obtain ⟨hhead, heq⟩ := Option.ite_none_right_eq_some.mp hexpect
  obtain rfl := Option.some.inj heq
  obtain ⟨tail, hcons⟩ := List.head?_eq_some_iff.mp hhead
  rw [hcons] at hlength ⊢
  exact hlength

/-- The bounds for the three readers with one amount of fuel. -/
structure Bounded (decimal : List Char → δ) (fuel : ℕ) : Prop where
  value : ∀ {text rest t}, readValue decimal fuel text = some (t, rest) →
    width t + rest.length ≤ text.length
  elements : ∀ {text rest elements}, readElements decimal fuel text = some (elements, rest) →
    max 1 (elementsWidth elements) + rest.length ≤ text.length
  members : ∀ {text rest members}, readMembers decimal fuel text = some (members, rest) →
    max 1 (membersWidth members) + rest.length ≤ text.length

theorem bounded_readValue {fuel : ℕ} (hbounded : Bounded decimal fuel)
    (hread : readValue decimal (fuel + 1) text = some (t, rest)) :
    width t + rest.length ≤ text.length := by
  have hblanks := length_skipBlanks_le text
  rw [readValue] at hread
  split at hread
  · cases hread
  next c behind hcons =>
    rw [hcons, List.length_cons] at hblanks
    split_ifs at hread with _ _ _ _ hnull _ htrue _ hfalse
    · obtain ⟨⟨s, last⟩, hstring, heq⟩ := Option.map_eq_some_iff.mp hread
      obtain ⟨rfl, rfl⟩ := Prod.mk.inj heq
      have hlength := readString_width hstring
      rw [width]
      dsimp only
      omega
    · split at hread
      next last hempty =>
        obtain ⟨rfl, rfl⟩ := Prod.mk.inj (Option.some.inj hread)
        have hlength := expect_length hempty
        rw [width, elementsWidth]
        omega
      · obtain ⟨⟨elements, last⟩, helements, heq⟩ := Option.map_eq_some_iff.mp hread
        obtain ⟨rfl, rfl⟩ := Prod.mk.inj heq
        have hlength := hbounded.elements helements
        rw [width]
        dsimp only
        omega
    · split at hread
      next last hempty =>
        obtain ⟨rfl, rfl⟩ := Prod.mk.inj (Option.some.inj hread)
        have hlength := expect_length hempty
        rw [width, membersWidth]
        omega
      · obtain ⟨⟨members, last⟩, hmembers, heq⟩ := Option.map_eq_some_iff.mp hread
        obtain ⟨rfl, rfl⟩ := Prod.mk.inj heq
        have hlength := hbounded.members hmembers
        have hcollect := membersWidth_collect members
        rw [width]
        dsimp only
        omega
    · obtain ⟨rfl, rfl⟩ := Prod.mk.inj (Option.some.inj hread)
      have hlength := take_length_le hnull
      rw [width]
      simp only [List.length_cons, List.length_nil] at hlength
      omega
    · obtain ⟨rfl, rfl⟩ := Prod.mk.inj (Option.some.inj hread)
      have hlength := take_length_le htrue
      rw [width, if_pos rfl]
      simp only [List.length_cons, List.length_nil] at hlength
      omega
    · obtain ⟨rfl, rfl⟩ := Prod.mk.inj (Option.some.inj hread)
      have hlength := take_length_le hfalse
      rw [width, if_neg Bool.false_ne_true]
      simp only [List.length_cons, List.length_nil] at hlength
      omega
    · have hlength := readNumber_width hread
      rw [List.length_cons] at hlength
      exact hlength.trans hblanks

theorem bounded_readElements {fuel : ℕ} (hbounded : Bounded decimal fuel)
    {elements : List (JsonTree δ)} (hread : readElements decimal (fuel + 1) text = some (elements, rest)) :
    max 1 (elementsWidth elements) + rest.length ≤ text.length := by
  rw [readElements, Option.bind_eq_bind, Option.bind_eq_some_iff] at hread
  obtain ⟨⟨t, middle⟩, hvalue, hread⟩ := hread
  dsimp only at hread
  have hfirst := hbounded.value hvalue
  have hblanks := length_skipBlanks_le middle
  split at hread
  next behind hcons =>
    obtain ⟨⟨others, last⟩, hothers, heq⟩ := Option.bind_eq_some_iff.mp hread
    obtain ⟨rfl, rfl⟩ := Prod.mk.inj (Option.some.inj heq)
    have hrest := hbounded.elements hothers
    rw [hcons, List.length_cons] at hblanks
    rw [elementsWidth]
    dsimp only
    omega
  next behind hcons =>
    obtain ⟨rfl, rfl⟩ := Prod.mk.inj (Option.some.inj hread)
    rw [hcons, List.length_cons] at hblanks
    rw [elementsWidth, elementsWidth]
    omega
  · cases hread

theorem bounded_readMembers {fuel : ℕ} (hbounded : Bounded decimal fuel)
    {members : List (List Char × JsonTree δ)}
    (hread : readMembers decimal (fuel + 1) text = some (members, rest)) :
    max 1 (membersWidth members) + rest.length ≤ text.length := by
  rw [readMembers] at hread
  simp only [Option.bind_eq_bind, Option.bind_eq_some_iff, Prod.exists] at hread
  obtain ⟨quoted, hquote, name, middle, hname, value, hcolon, t, middle', hvalue, hread⟩ := hread
  have hquoteLength := expect_length hquote
  have hnameLength := readString_width hname
  have hcolonLength := expect_length hcolon
  have hvalueLength := hbounded.value hvalue
  have hblanks := length_skipBlanks_le middle'
  split at hread
  next behind hcons =>
    obtain ⟨⟨others, last⟩, hothers, heq⟩ := Option.bind_eq_some_iff.mp hread
    obtain ⟨rfl, rfl⟩ := Prod.mk.inj (Option.some.inj heq)
    have hrest := hbounded.members hothers
    rw [hcons, List.length_cons] at hblanks
    rw [membersWidth]
    dsimp only
    omega
  next behind hcons =>
    obtain ⟨rfl, rfl⟩ := Prod.mk.inj (Option.some.inj hread)
    rw [hcons, List.length_cons] at hblanks
    rw [membersWidth, membersWidth]
    omega
  · cases hread

theorem bounded (decimal : List Char → δ) (fuel : ℕ) : Bounded decimal fuel := by
  induction fuel with
  | zero =>
      refine ⟨fun hread => ?_, fun hread => ?_, fun hread => ?_⟩
      · rw [readValue] at hread
        cases hread
      · rw [readElements] at hread
        cases hread
      · rw [readMembers] at hread
        cases hread
  | succ fuel ih => exact ⟨bounded_readValue ih, bounded_readElements ih, bounded_readMembers ih⟩

/-- A text that denotes a tree has its width at least. -/
theorem width_le_length (hread : read decimal text = some t) : width t ≤ text.length := by
  obtain ⟨⟨t', rest⟩, hvalue, hread⟩ := Option.bind_eq_some_iff.mp hread
  obtain ⟨-, heq⟩ := Option.ite_none_right_eq_some.mp hread
  obtain rfl := Option.some.inj heq
  exact Nat.le_of_add_right_le ((bounded decimal _).value hvalue)

end JsonText

end CppProjects
