import Mathlib.Data.UInt
import CppProjects.Core.CString

/-!
# `url_decode`

A decoder of `%HH` and `+` that reads one NUL-terminated string and writes
another.  A `char` is a byte: where it is signed, the bytes from `0x80` on are
below all the characters that are compared with, and where it is not, above.
-/

namespace CppProjects

namespace UrlDecode

open CString

def percent : UInt8 := '%'.toUInt8
def plus : UInt8 := '+'.toUInt8
def space : UInt8 := ' '.toUInt8
def ampersand : UInt8 := '&'.toUInt8
def equals : UInt8 := '='.toUInt8

def inRange (first last : Char) (c : UInt8) : Bool :=
  decide (first.toUInt8 ≤ c) && decide (c ≤ last.toUInt8)

def isxdigit (c : UInt8) : Bool :=
  inRange '0' '9' c || inRange 'A' 'F' c || inRange 'a' 'f' c

/-- `a` after its three branches. -/
def highNibble (a : UInt8) : UInt8 :=
  if inRange '0' '9' a then a - '0'.toUInt8
  else if inRange 'A' 'F' a then a - ('A'.toUInt8 - 10)
  else if inRange 'a' 'f' a then a - ('a'.toUInt8 - 10)
  else a

/-- `b` after its three branches, the last of which tests the nibble that `a`
has become. -/
def lowNibble (a b : UInt8) : UInt8 :=
  if inRange '0' '9' b then b - '0'.toUInt8
  else if inRange 'A' 'F' b then b - ('A'.toUInt8 - 10)
  else if decide ('a'.toUInt8 ≤ b) && decide (a ≤ 'f'.toUInt8) then b - ('a'.toUInt8 - 10)
  else b

/-- What is written for the string at `src`, before the closing NUL.  `src[1]`
and `src[2]` are that NUL where the string is too short. -/
def urlDecode : List UInt8 → List UInt8
  | [] => []
  | c :: rest =>
      let a := rest.getD 0 0
      let b := rest.getD 1 0
      if c = percent ∧ a ≠ 0 ∧ b ≠ 0 ∧ isxdigit a ∧ isxdigit b then
        (16 * highNibble a + lowNibble (highNibble a) b) :: urlDecode (rest.drop 2)
      else if c = plus then
        space :: urlDecode rest
      else
        c :: urlDecode rest
  termination_by text => text.length
  decreasing_by all_goals simp only [List.length_drop, List.length_cons]; omega

/-- `url_decode(dst, src)` with `capacity` bytes at `dst`: all bytes it writes
there, or none when one of its accesses is out of bounds. -/
def urlDecodeInto (capacity : ℕ) (block : List UInt8) (src : ℕ) : Option (List UInt8) :=
  (stringAt block src).bind fun text =>
    if (urlDecode text).length + 1 ≤ capacity then some (urlDecode text ++ [0]) else none

def hexDigit (upper : Bool) (value : ℕ) : UInt8 :=
  if value < 10 then '0'.toUInt8 + value.toUInt8
  else if upper then 'A'.toUInt8 + (value - 10).toUInt8
  else 'a'.toUInt8 + (value - 10).toUInt8

/-- The encodings of a text in which a byte that satisfies `literal` may stand
for itself. -/
inductive Encodes (literal : UInt8 → Prop) : List UInt8 → List UInt8 → Prop where
  | nil : Encodes literal [] []
  | literal {c : UInt8} {text encoded : List UInt8} (hc : literal c)
      (hrest : Encodes literal text encoded) : Encodes literal (c :: text) (c :: encoded)
  | plus {text encoded : List UInt8} (hrest : Encodes literal text encoded) :
      Encodes literal (space :: text) (plus :: encoded)
  | hex {c : UInt8} {text encoded : List UInt8} (upperHigh upperLow : Bool)
      (hrest : Encodes literal text encoded) :
      Encodes literal (c :: text)
        (percent :: hexDigit upperHigh (c.toNat / 16) :: hexDigit upperLow (c.toNat % 16) ::
          encoded)

/-- What may stand for itself. -/
def Plain (c : UInt8) : Prop := c ≠ percent ∧ c ≠ plus ∧ c ≠ space

instance : DecidablePred Plain := fun _ => inferInstanceAs (Decidable (_ ∧ _))

section Digits

theorem hexDigit_spec : ∀ (upper : Bool) (value : Fin 16),
    isxdigit (hexDigit upper value) = true ∧
      highNibble (hexDigit upper value) = value.val.toUInt8 ∧
      ∀ high : Fin 16, lowNibble high.val.toUInt8 (hexDigit upper value) = value.val.toUInt8 := by
  decide

/-- None of the bytes that mean something in an encoding is a hex digit. -/
theorem ne_of_isxdigit : ∀ c ∈ [0, percent, plus, space, ampersand, equals],
    isxdigit c = false := by
  decide +kernel

theorem isxdigit_hexDigit (upper : Bool) {value : ℕ} (hvalue : value < 16) :
    isxdigit (hexDigit upper value) = true :=
  (hexDigit_spec upper ⟨value, hvalue⟩).1

theorem hexDigit_ne (upper : Bool) {value : ℕ} (hvalue : value < 16) {c : UInt8}
    (hc : c ∈ [0, percent, plus, space, ampersand, equals]) : hexDigit upper value ≠ c := by
  intro hsame
  have hdigit := isxdigit_hexDigit upper hvalue
  rw [hsame, ne_of_isxdigit c hc] at hdigit
  exact Bool.false_ne_true hdigit

/-- Two nibbles give their byte back. -/
theorem nibbles (c : UInt8) :
    16 * (c.toNat / 16).toUInt8 + (c.toNat % 16).toUInt8 = c := by
  have hc := c.toNat_lt
  have hsixteen : (16 : UInt8).toNat = 16 := rfl
  apply UInt8.toNat_inj.mp
  simp only [UInt8.toNat_add, UInt8.toNat_mul, Nat.toUInt8, UInt8.toNat_ofNat', hsixteen]
  omega

end Digits

section Decoding

variable {literal : UInt8 → Prop} {c : UInt8} {text encoded : List UInt8}

theorem urlDecode_literal (hpercent : c ≠ percent) (hplus : c ≠ plus) :
    urlDecode (c :: text) = c :: urlDecode text := by
  rw [urlDecode]
  simp only [hpercent, hplus, false_and, if_false]

theorem urlDecode_plus : urlDecode (plus :: text) = space :: urlDecode text := by
  have hne : plus ≠ percent := by decide
  rw [urlDecode]
  simp only [hne, false_and, if_false, if_true]

theorem urlDecode_hex (upperHigh upperLow : Bool) :
    urlDecode (percent :: hexDigit upperHigh (c.toNat / 16) ::
      hexDigit upperLow (c.toNat % 16) :: text) = c :: urlDecode text := by
  have hc := c.toNat_lt
  have hhigh : c.toNat / 16 < 16 := by omega
  have hlow : c.toNat % 16 < 16 := by omega
  have hspec := hexDigit_spec upperLow ⟨c.toNat % 16, hlow⟩
  rw [urlDecode]
  simp only [List.getD_cons_zero, List.getD_cons_succ, List.drop_succ_cons, List.drop_zero]
  rw [if_pos ⟨trivial, hexDigit_ne upperHigh hhigh (by simp), hexDigit_ne upperLow hlow (by simp),
      isxdigit_hexDigit upperHigh hhigh, isxdigit_hexDigit upperLow hlow⟩,
    (hexDigit_spec upperHigh ⟨c.toNat / 16, hhigh⟩).2.1, hspec.2.2 ⟨c.toNat / 16, hhigh⟩, nibbles]

/-- An encoding decodes to its text. -/
theorem Encodes.urlDecode_eq (hencodes : Encodes literal text encoded)
    (hliteral : ∀ c, literal c → Plain c) : urlDecode encoded = text := by
  induction hencodes with
  | nil => rw [urlDecode]
  | literal hc _ ih =>
      obtain ⟨hpercent, hplus, -⟩ := hliteral _ hc
      rw [urlDecode_literal hpercent hplus, ih]
  | plus _ ih => rw [urlDecode_plus, ih]
  | hex upperHigh upperLow _ ih => rw [urlDecode_hex, ih]

theorem Encodes.self (hliteral : ∀ c ∈ text, literal c) : Encodes literal text text := by
  induction text with
  | nil => exact .nil
  | cons c text ih =>
      exact .literal (hliteral c List.mem_cons_self)
        (ih fun x hx => hliteral x (List.mem_cons_of_mem _ hx))

/-- A byte with a meaning of its own, and which may not stand for itself, is not
in an encoding. -/
theorem Encodes.notMem (hencodes : Encodes literal text encoded)
    (hc : c ∈ [0, ampersand, equals]) (hliteral : ∀ x ∈ text, literal x → x ≠ c) :
    c ∉ encoded := by
  have hmem : c ∈ [0, percent, UrlDecode.plus, space, ampersand, equals] := by
    simp only [List.mem_cons, List.not_mem_nil, or_false] at hc ⊢
    tauto
  have hpercent : c ≠ percent := by
    rintro rfl
    exact absurd hc (by decide)
  have hplus : c ≠ UrlDecode.plus := by
    rintro rfl
    exact absurd hc (by decide)
  induction hencodes with
  | nil => exact List.not_mem_nil
  | literal hx _ ih =>
      have hne := hliteral _ List.mem_cons_self hx
      have htail := ih fun x hx => hliteral x (List.mem_cons_of_mem _ hx)
      simp only [List.mem_cons, not_or]
      exact ⟨hne.symm, htail⟩
  | plus _ ih =>
      have htail := ih fun x hx => hliteral x (List.mem_cons_of_mem _ hx)
      simp only [List.mem_cons, not_or]
      exact ⟨hplus, htail⟩
  | @hex x text encoded upperHigh upperLow _ ih =>
      have hx := x.toNat_lt
      have htail := ih fun x hx => hliteral x (List.mem_cons_of_mem _ hx)
      simp only [List.mem_cons, not_or]
      exact ⟨hpercent, (hexDigit_ne upperHigh (by omega) hmem).symm,
        (hexDigit_ne upperLow (by omega) hmem).symm, htail⟩

theorem length_urlDecode_le (input : List UInt8) : (urlDecode input).length ≤ input.length := by
  induction input using urlDecode.induct with
  | case1 => rw [urlDecode]
  | case2 c rest a b hescape ih =>
      rw [urlDecode, if_pos hescape]
      simp only [List.length_cons, List.length_drop] at ih ⊢
      omega
  | case3 rest a b hescape ih =>
      rw [urlDecode, if_neg hescape, if_pos rfl]
      exact Nat.succ_le_succ ih
  | case4 c rest a b hescape hplus ih =>
      rw [urlDecode, if_neg hescape, if_neg hplus]
      exact Nat.succ_le_succ ih

/-- The destination needs one byte more than the decoded text. -/
theorem urlDecodeInto_eq_some_iff {capacity src : ℕ} {block : List UInt8}
    (htext : stringAt block src = some encoded) (hdecoded : urlDecode encoded = text) :
    urlDecodeInto capacity block src = some (text ++ [0]) ↔ text.length < capacity := by
  rw [urlDecodeInto, htext, Option.bind_some, hdecoded]
  split <;> simp <;> omega

end Decoding

/-- Every encoding of a text is decoded to that text, into any buffer that holds
it; and no input grows. -/
theorem urlDecode_inverts_encodings {text encoded : List UInt8} (htext : 0 ∉ text)
    (hencodes : Encodes Plain text encoded) (input : List UInt8) :
    urlDecode encoded = text ∧
      (∀ capacity, text.length < capacity →
        urlDecodeInto capacity (encoded ++ [0]) 0 = some (text ++ [0])) ∧
      stringAt (text ++ [0]) 0 = some text ∧
      (urlDecode input).length ≤ input.length := by
  have hdecoded := hencodes.urlDecode_eq fun c hc => hc
  have hzero : 0 ∉ encoded := hencodes.notMem (by simp) fun x hx _ hzero => htext (hzero ▸ hx)
  have hsource : stringAt (encoded ++ [0]) 0 = some encoded := stringAt_zero hzero
  refine ⟨hdecoded, fun capacity hcapacity => ?_, ?_, length_urlDecode_le input⟩
  · exact (urlDecodeInto_eq_some_iff hsource hdecoded).mpr hcapacity
  · exact stringAt_zero htext

/-- `%4A+b` is `J b`. -/
theorem urlDecode_inverts_mixed :
    urlDecode [0x25, 0x34, 0x41, 0x2b, 0x62] = [0x4a, 0x20, 0x62] ∧
      (∀ capacity, 3 < capacity →
        urlDecodeInto capacity [0x25, 0x34, 0x41, 0x2b, 0x62, 0] 0 =
          some [0x4a, 0x20, 0x62, 0]) ∧
      stringAt [0x4a, 0x20, 0x62, (0 : UInt8)] 0 = some [0x4a, 0x20, 0x62] ∧
      (urlDecode [0x25]).length ≤ 1 := by
  have hencodes : Encodes Plain [0x4a, 0x20, 0x62] [0x25, 0x34, 0x41, 0x2b, 0x62] :=
    .hex true true (.plus (.literal (by decide) .nil))
  exact urlDecode_inverts_encodings (by decide) hencodes [0x25]

end UrlDecode

end CppProjects
