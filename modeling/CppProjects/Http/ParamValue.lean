import CppProjects.Http.QueryString

/-!
# `get_param_value`

A copy of the query is cut into pairs and each name is decoded into 256 bytes on
the stack; so is the value of the first name that is asked for.
-/

namespace CppProjects

namespace ParamValue

open CString UrlDecode QueryString

/-- `char decoded_name[256]` and `char decoded_value[256]`. -/
def bufferSize : ℕ := 256

/-- The string that `url_decode` leaves in a buffer. -/
def decodedString (block : List UInt8) (src : ℕ) : Option (List UInt8) :=
  (urlDecodeInto bufferSize block src).bind fun buffer => stringAt buffer 0

/-- The `while` loop, with `strtok` to be called next at `saved`: none when an
access is out of bounds. -/
def search (paramName : List UInt8) (block : List UInt8) (saved : ℕ) :
    Option (Option (List UInt8)) :=
  match htoken : strtok ampersand block saved with
  | none => none
  | some none => some none
  | some (some token) =>
      match strchr equals token.block token.first with
      | none => none
      | some none => search paramName token.block token.saved
      | some (some eq) =>
          (decodedString (token.block.set eq 0) token.first).bind fun decodedName =>
            if decodedName = paramName then
              (decodedString (token.block.set eq 0) (eq + 1)).map some
            else search paramName (token.block.set eq 0) token.saved
  termination_by block.length - saved
  decreasing_by
    · exact strtok_advances htoken
    · rw [List.length_set]
      exact strtok_advances htoken

/-- `get_param_value`, where an argument may be `NULL` and so may the result. -/
def getParamValue (query paramName : Option (List UInt8)) : Option (Option (List UInt8)) :=
  match query, paramName with
  | some query, some paramName => search paramName (query ++ [0]) 0
  | _, _ => some none

/-- What an encoded query may have standing for itself. -/
def PlainInQuery (c : UInt8) : Prop := Plain c ∧ c ≠ ampersand ∧ c ≠ equals

instance : DecidablePred PlainInQuery := fun _ => inferInstanceAs (Decidable (_ ∧ _))

/-- `encoded` is an encoding of the two texts of `pair`. -/
structure EncodesPair (pair encoded : Pair) : Prop where
  name : Encodes PlainInQuery pair.1 encoded.1
  value : Encodes PlainInQuery pair.2 encoded.2
  nameNul : 0 ∉ pair.1
  valueNul : 0 ∉ pair.2

/-- The names that are decoded, and the value if there is one, leave room for
the closing NUL. -/
def FitsBuffers (paramName : List UInt8) : List Pair → Prop
  | [] => True
  | pair :: pairs =>
      pair.1.length < bufferSize ∧
        if pair.1 = paramName then pair.2.length < bufferSize else FitsBuffers paramName pairs

instance fitsBuffersDecidable (paramName : List UInt8) :
    (pairs : List Pair) → Decidable (FitsBuffers paramName pairs)
  | [] => .isTrue trivial
  | pair :: pairs =>
      have := fitsBuffersDecidable paramName pairs
      if hsame : pair.1 = paramName then
        decidable_of_iff (pair.1.length < bufferSize ∧ pair.2.length < bufferSize) (by
          rw [FitsBuffers, if_pos hsame])
      else
        decidable_of_iff (pair.1.length < bufferSize ∧ FitsBuffers paramName pairs) (by
          rw [FitsBuffers, if_neg hsame])

section Search

variable {paramName : List UInt8} {before behind block : List UInt8} {pair encoded : Pair}
  {pairs encodings : List Pair} {src : ℕ}

theorem EncodesPair.separable (hpair : EncodesPair pair encoded) : Separable encoded := by
  have hsplit : ∀ c ∈ [0, ampersand, equals], c ≠ equals →
      (∀ x ∈ pair.1 ++ pair.2, PlainInQuery x → x ≠ c) → c ∉ assignment encoded := by
    intro c hc hne hliteral
    simp only [assignment, List.mem_append, List.mem_cons, not_or]
    exact ⟨hpair.name.notMem hc fun x hx => hliteral x (List.mem_append_left _ hx), hne,
      hpair.value.notMem hc fun x hx => hliteral x (List.mem_append_right _ hx)⟩
  constructor
  · refine hsplit 0 (by simp) (by decide) ?_
    rintro x hx - rfl
    exact (List.mem_append.mp hx).elim hpair.nameNul hpair.valueNul
  · exact hsplit ampersand (by simp) (by decide) fun x _ hx => hx.2.1
  · exact hpair.name.notMem (by simp) fun x _ hx => hx.2.2

theorem separable_of_encodes (hpairs : List.Forall₂ EncodesPair pairs encodings) :
    ∀ other ∈ encodings, Separable other := by
  induction hpairs with
  | nil => exact fun other hother => absurd hother List.not_mem_nil
  | cons hpair _ ih =>
      intro other hother
      rcases List.mem_cons.mp hother with rfl | hother
      · exact hpair.separable
      · exact ih other hother

/-- Decoding an encoded text into a buffer of the stack. -/
theorem decodedString_encoded {text code : List UInt8} (hencodes : Encodes PlainInQuery text code)
    (hnul : 0 ∉ text) (hcode : stringAt block src = some code) :
    decodedString block src = if text.length < bufferSize then some text else none := by
  have hdecoded := hencodes.urlDecode_eq fun c hc => hc.1
  rw [decodedString, urlDecodeInto, hcode, Option.bind_some, hdecoded]
  simp only [Nat.add_one_le_iff]
  split
  · exact stringAt_zero hnul
  · rfl

/-- One turn of the loop at a pair. -/
theorem search_cons (hpair : EncodesPair pair encoded)
    (hencodings : ∀ other ∈ encoded :: encodings, Separable other) :
    ∃ before' : List UInt8,
      search paramName (before ++ (joined (encoded :: encodings) ++ 0 :: behind)) before.length =
        if pair.1.length < bufferSize then
          if pair.1 = paramName then
            if pair.2.length < bufferSize then some (some pair.2) else none
          else search paramName (before' ++ (joined encodings ++ 0 :: behind)) before'.length
        else none := by
  have hencoded := hencodings encoded List.mem_cons_self
  obtain ⟨closing, rest, htoken, hrest, -⟩ := strtok_joined before behind hencodings
  obtain ⟨hset, hname, hvalue⟩ := split_assignment before rest hencoded
  refine ⟨taken before encoded closing, ?_⟩
  rw [← length_taken] at htoken
  rw [search]
  split
  case h_1 hnone => rw [htoken] at hnone; cases hnone
  case h_2 hnone => rw [htoken] at hnone; cases hnone
  case h_3 token hsome =>
    rw [htoken, Option.some.injEq, Option.some.injEq] at hsome
    subst hsome
    simp only [strchr_assignment hencoded, hset]
    rw [decodedString_encoded hpair.name hpair.nameNul hname,
      decodedString_encoded hpair.value hpair.valueNul hvalue, taken_append hrest]
    by_cases hfits : pair.1.length < bufferSize
    · rw [if_pos hfits, if_pos hfits, Option.bind_some]
      by_cases hsame : pair.1 = paramName
      · rw [if_pos hsame, if_pos hsame]
        split <;> rfl
      · rw [if_neg hsame, if_neg hsame]
    · rw [if_neg hfits, if_neg hfits, Option.bind_none]

/-- The search finds the first pair with the name, unless a text that it decodes
is too long for its buffer. -/
theorem search_joined (hpairs : List.Forall₂ EncodesPair pairs encodings) (before : List UInt8) :
    search paramName (before ++ (joined encodings ++ 0 :: behind)) before.length =
      if FitsBuffers paramName pairs then some (pairs.lookup paramName) else none := by
  induction hpairs generalizing before with
  | nil =>
      have hend : strtok ampersand (before ++ (joined [] ++ 0 :: behind)) before.length =
        some none := strtok_end
      rw [search]
      split
      case h_1 hnone => rw [hend] at hnone; cases hnone
      case h_2 => rfl
      case h_3 token hsome => rw [hend] at hsome; cases hsome
  | @cons pair encoded pairs encodings hpair hrest ih =>
      obtain ⟨before', hturn⟩ := search_cons hpair (separable_of_encodes (.cons hpair hrest))
      rw [hturn, ih before', List.lookup_cons]
      by_cases hfits : pair.1.length < bufferSize
      · by_cases hsame : pair.1 = paramName
        · simp [FitsBuffers, hsame, hsame ▸ hfits]
        · have hbeq : (paramName == pair.1) = false :=
            beq_eq_false_iff_ne.mpr (Ne.symm hsame)
          simp [FitsBuffers, hfits, hsame, hbeq]
      · simp [FitsBuffers, hfits]

/-- The value of the first pair with the name is found exactly when what has to
be decoded on the way fits; otherwise a byte is written out of bounds. -/
theorem getParamValue_finds_iff (hpairs : List.Forall₂ EncodesPair pairs encodings)
    (paramName : List UInt8) :
    (getParamValue (some (joined encodings)) (some paramName) =
        some (pairs.lookup paramName) ↔ FitsBuffers paramName pairs) ∧
      (¬ FitsBuffers paramName pairs →
        getParamValue (some (joined encodings)) (some paramName) = none) := by
  have hsearch : getParamValue (some (joined encodings)) (some paramName) =
      if FitsBuffers paramName pairs then some (pairs.lookup paramName) else none :=
    search_joined hpairs []
  rw [hsearch]
  by_cases hfits : FitsBuffers paramName pairs <;> simp [hfits]

end Search

/-- `c=%61+&d=`, asked for `c`. -/
theorem getParamValue_finds_color :
    getParamValue (some [0x63, 0x3d, 0x25, 0x36, 0x31, 0x2b, 0x26, 0x64, 0x3d]) (some [0x63]) =
      some (some [0x61, 0x20]) := by
  have hc : Encodes PlainInQuery [0x63] [0x63] := .literal (by decide) .nil
  have hd : Encodes PlainInQuery [0x64] [0x64] := .literal (by decide) .nil
  have hvalue : Encodes PlainInQuery [0x61, 0x20] [0x25, 0x36, 0x31, 0x2b] :=
    .hex true true (.plus .nil)
  have hfirst : EncodesPair ([0x63], [0x61, 0x20]) ([0x63], [0x25, 0x36, 0x31, 0x2b]) :=
    ⟨hc, hvalue, by decide, by decide⟩
  have hsecond : EncodesPair ([0x64], []) ([0x64], []) := ⟨hd, .nil, by decide, by decide⟩
  exact (getParamValue_finds_iff (.cons hfirst (.cons hsecond .nil)) [0x63]).1.mpr (by decide)

/-- A name of 256 letters, with an empty value, is in the way of every other
name. -/
theorem getParamValue_overflows :
    let name : List UInt8 := List.replicate 256 0x61
    List.Forall₂ EncodesPair [(name, [])] [(name, [])] ∧
      getParamValue (some (joined [(name, [])])) (some [0x63]) = none := by
  intro name
  have hname : Encodes PlainInQuery name name := Encodes.self fun c hc => by
    rw [List.eq_of_mem_replicate hc]
    decide
  have hpairs : List.Forall₂ EncodesPair [(name, [])] [(name, [])] :=
    .cons ⟨hname, .nil, by decide, List.not_mem_nil⟩ .nil
  have hlong : ¬ FitsBuffers [0x63] [(name, [])] := by
    rintro ⟨hfits, -⟩
    rw [List.length_replicate, bufferSize] at hfits
    omega
  have hsearch : search [0x63] ([] ++ (joined [(name, [])] ++ 0 :: []))
      ([] : List UInt8).length = _ := search_joined hpairs []
  rw [if_neg hlong] at hsearch
  exact ⟨hpairs, hsearch⟩

end ParamValue

end CppProjects
