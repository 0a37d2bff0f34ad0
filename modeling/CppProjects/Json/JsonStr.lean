import CppProjects.Json.JsonValue

/-!
# When `Json::str` prints a JSON text

Strings are printed as they are.  The text denotes the value exactly if each
character of its strings and names stands for itself between quotes.
-/

namespace CppProjects

open JsonText

variable {δ : Type}

namespace JsonTree

def NoDouble (t : JsonTree δ) : Prop := t.All (fun leaf => ∀ value, leaf ≠ .double value) fun _ => True

/-- No string and no name has a quote, a backslash or a control character. -/
def IsPlain (t : JsonTree δ) : Prop :=
  t.All (fun leaf => ∀ text, leaf = .string text → ∀ c ∈ text, Plain c)
    fun names => ∀ name ∈ names, ∀ c ∈ name, Plain c

/-- The members of each object are in the order of their names. -/
def Sorted (t : JsonTree δ) : Prop := t.All (fun _ => True) fun names => names.Pairwise (· < ·)

/-! ## The length of what is printed -/

theorem length_joined_false (texts : List (List Char)) :
    (JsonHeap.joined false texts).length = (texts.map fun text => text.length + 1).sum := by
  induction texts with
  | nil => rfl
  | cons text texts ih =>
      rw [JsonHeap.joined, List.length_append, List.length_append, ih, List.map_cons, List.sum_cons,
        if_neg Bool.false_ne_true, List.length_singleton, Nat.add_comm 1]

theorem length_enclosed (first last : Char) (texts : List (List Char)) :
    ([first] ++ JsonHeap.joined true texts ++ [last]).length =
      1 + max 1 (texts.map fun text => text.length + 1).sum := by
  cases texts with
  | nil => rfl
  | cons text texts =>
      rw [JsonHeap.joined, if_pos rfl, List.nil_append, List.length_append, List.length_append,
        List.length_append, length_joined_false, List.map_cons, List.sum_cons, List.length_singleton,
        List.length_singleton]
      omega

theorem length_quoted (text : List Char) : (JsonHeap.quoted text).length = text.length + 2 := by
  simp [JsonHeap.quoted]

theorem elementsWidth_eq_sum (elements : List (JsonTree δ)) :
    elementsWidth elements = (elements.map fun t => width t + 1).sum := by
  induction elements with
  | nil => rfl
  | cons t elements ih => rw [elementsWidth, ih, List.map_cons, List.sum_cons]

theorem membersWidth_eq_sum (members : List (List Char × JsonTree δ)) :
    membersWidth members =
      (members.map fun member => textWidth member.1 + 3 + width member.2 + 1).sum := by
  induction members with
  | nil => rfl
  | cons member members ih => rw [membersWidth, ih, List.map_cons, List.sum_cons]

/-- A sum that is not smaller than a sum of bounds attains each of them. -/
theorem forall_le_of_sum_le {α : Type} {l : List α} {f g : α → ℕ} (hle : ∀ x ∈ l, f x ≤ g x)
    (hsum : max 1 (l.map g).sum ≤ max 1 (l.map f).sum) (hpos : ∀ x ∈ l, 1 ≤ f x) :
    ∀ x ∈ l, g x ≤ f x := by
  by_contra hless
  push Not at hless
  have hlt := List.sum_lt_sum f g hle hless
  obtain ⟨x, hmem, -⟩ := hless
  have hone := (hpos x hmem).trans (List.single_le_sum (by simp) _ (List.mem_map_of_mem hmem))
  omega

/-- What is printed is no longer than any text that denotes the tree. -/
theorem length_str_le (ostream : δ → List Char) (t : JsonTree δ) (hnone : t.NoDouble) :
    (t.str ostream).length ≤ width t ∧ (width t ≤ (t.str ostream).length → t.IsPlain) := by
  induction t using JsonTree.induction with
  | null => exact ⟨Nat.le_refl _, fun _ _ heq => by cases heq⟩
  | bool value =>
      refine ⟨?_, fun _ _ heq => by cases heq⟩
      cases value <;> exact Nat.le_refl _
  | int value => exact ⟨Nat.le_refl _, fun _ _ heq => by cases heq⟩
  | double value => exact absurd rfl (hnone value)
  | string text =>
      rw [str, width, length_quoted]
      have hlength := length_le_textWidth text
      refine ⟨by omega, fun hle text' heq => ?_⟩
      obtain rfl := JsonTree.string.inj heq
      exact textWidth_eq_length_iff.mp (by omega)
  | array elements ih =>
      have hnone : ∀ t ∈ elements, t.NoDouble := allElements_iff.mp hnone
      rw [str, width, length_enclosed, strElements_eq_map, elementsWidth_eq_sum, List.map_map]
      have hle : ∀ t ∈ elements, (t.str ostream).length + 1 ≤ width t + 1 := fun t hmem =>
        Nat.add_le_add_right (ih t hmem (hnone t hmem)).1 1
      have hsum := List.sum_le_sum hle
      refine ⟨Nat.add_le_add_left (max_le_max_left 1 hsum) 1, fun hwidth => ?_⟩
      have hall := forall_le_of_sum_le hle (Nat.le_of_add_le_add_left hwidth)
        fun t _ => Nat.le_add_left 1 _
      exact allElements_iff.mpr fun t hmem =>
        (ih t hmem (hnone t hmem)).2 (Nat.le_of_add_le_add_right (hall t hmem))
  | object members ih =>
      have hnone : ∀ member ∈ members, member.2.NoDouble := allMembers_iff.mp hnone.2
      rw [str, width, length_enclosed, strMembers_eq_map, membersWidth_eq_sum, List.map_map]
      have hle : ∀ member ∈ members,
          (JsonHeap.quoted member.1 ++ ':' :: member.2.str ostream).length + 1 ≤
            textWidth member.1 + 3 + width member.2 + 1 := by
        intro member hmem
        have hname := length_le_textWidth member.1
        have hvalue := (ih member hmem (hnone member hmem)).1
        rw [List.length_append, length_quoted, List.length_cons]
        omega
      have hsum := List.sum_le_sum hle
      refine ⟨Nat.add_le_add_left (max_le_max_left 1 hsum) 1, fun hwidth => ?_⟩
      have hall := forall_le_of_sum_le hle (Nat.le_of_add_le_add_left hwidth)
        fun member _ => Nat.le_add_left 1 _
      have hboth : ∀ member ∈ members, textWidth member.1 = member.1.length ∧
          width member.2 ≤ (member.2.str ostream).length := by
        intro member hmem
        have hname := length_le_textWidth member.1
        have hvalue := (ih member hmem (hnone member hmem)).1
        have hmember := hall member hmem
        rw [List.length_append, length_quoted, List.length_cons] at hmember
        exact ⟨by omega, by omega⟩
      refine ⟨?_, ?_⟩
      · intro name hname
        obtain ⟨member, hmem, rfl⟩ := List.mem_map.mp hname
        exact textWidth_eq_length_iff.mp (hboth member hmem).1
      · exact allMembers_iff.mpr fun member hmem =>
          (ih member hmem (hnone member hmem)).2 (hboth member hmem).2

/-! ## Reading it back -/

/-- What follows does not continue a number. -/
def Ends (rest : List Char) : Prop :=
  ∀ c, rest.head? = some c → c.isDigit = false ∧ c ≠ '.' ∧ c ≠ 'e' ∧ c ≠ 'E'

theorem skipBlanks_cons {c : Char} {rest : List Char} (hblank : isBlank c = false) :
    skipBlanks (c :: rest) = c :: rest := by
  rw [skipBlanks, List.dropWhile_cons_of_neg (by simp [hblank])]

theorem readString_plain {text : List Char} (hplain : ∀ c ∈ text, Plain c) (rest : List Char)
    {fuel : ℕ} (hfuel : text.length < fuel) :
    readString fuel (text ++ '"' :: rest) = some (text, rest) := by
  induction text generalizing fuel with
  | nil =>
      obtain ⟨fuel, rfl⟩ := Nat.exists_eq_succ_of_ne_zero (Nat.ne_of_gt hfuel)
      rfl
  | cons c text ih =>
      obtain ⟨fuel, rfl⟩ := Nat.exists_eq_succ_of_ne_zero (Nat.ne_of_gt (Nat.zero_lt_of_lt hfuel))
      obtain ⟨⟨hquote, hescape, hcontrol⟩, hrest⟩ := List.forall_mem_cons.mp hplain
      rw [List.cons_append, readString, if_neg hquote, if_neg hescape, if_pos hcontrol,
        ih hrest (Nat.lt_of_succ_lt_succ hfuel)]
      rfl

theorem readDigits_toDigits (n : ℕ) {rest : List Char} (hends : Ends rest) :
    readDigits (Nat.toDigits 10 n ++ rest) = some (Nat.toDigits 10 n, rest) := by
  have hdigits : ∀ c ∈ Nat.toDigits 10 n, c.isDigit := fun c hmem =>
    Nat.isDigit_of_mem_toDigits (by decide) (by decide) hmem
  have htake : (Nat.toDigits 10 n ++ rest).takeWhile Char.isDigit = Nat.toDigits 10 n := by
    rw [List.takeWhile_append_of_pos hdigits]
    cases rest with
    | nil => simp
    | cons c rest => simp [(hends c rfl).1]
  have hdrop : (Nat.toDigits 10 n ++ rest).dropWhile Char.isDigit = rest := by
    rw [List.dropWhile_append_of_pos hdigits]
    cases rest with
    | nil => rfl
    | cons c rest => simp [(hends c rfl).1]
  rw [readDigits, List.span_eq_takeWhile_dropWhile, htake, hdrop]
  split
  next heq => exact absurd (congrArg Prod.fst heq) Nat.toDigits_ne_nil
  · rfl

theorem toDigits_zero_head (n : ℕ) (hhead : (Nat.toDigits 10 n).head? = some '0') :
    (Nat.toDigits 10 n).length = 1 := by
  have hpos : ∀ n, 0 < n → (Nat.toDigits 10 n).head? ≠ some '0' := by
    intro n
    induction n using Nat.strong_induction_on with
    | _ n ih =>
        intro hn
        by_cases hsmall : n < 10
        · have hdigit : ∀ m < 10, 0 < m → Nat.digitChar m ≠ '0' := by decide
          rw [Nat.toDigits_of_lt_base hsmall, List.head?_cons]
          exact fun heq => hdigit n hsmall hn (Option.some.inj heq)
        · rw [Nat.toDigits_of_base_le (by decide) (not_lt.mp hsmall),
            List.head?_append_of_ne_nil _ Nat.toDigits_ne_nil]
          exact ih (n / 10) (by omega) (by omega)
  rcases Nat.eq_zero_or_pos n with rfl | hn
  · rfl
  · exact absurd hhead (hpos n hn)

theorem readUnsigned_toDigits (decimal : List Char → δ) (negative : Bool) (n : ℕ) {rest : List Char}
    (hends : Ends rest) : readUnsigned decimal negative (Nat.toDigits 10 n ++ rest) =
      some (.int (if negative then -(n : ℤ) else n), rest) := by
  have hfraction : readFraction rest = some ([], rest) := by
    rw [readFraction.eq_def]
    split
    next digits => exact absurd rfl (hends '.' rfl).2.1
    · rfl
  have hexponent : readExponent rest = some ([], rest) := by
    rw [readExponent.eq_def]
    split
    · rfl
    next c rest =>
      have hends := hends c rfl
      rw [if_neg (not_or.mpr ⟨hends.2.2.1, hends.2.2.2⟩)]
  have hzero : ¬ ((Nat.toDigits 10 n).head? = some '0' ∧ (Nat.toDigits 10 n).length ≠ 1) :=
    fun hboth => hboth.2 (toDigits_zero_head n hboth.1)
  rw [readUnsigned, readDigits_toDigits n hends]
  simp [hzero, hfraction, hexponent, Nat.ofDigitChars_ten_toDigits]

/-- The first character of what is printed. -/
theorem exists_head_showInt (i : ℤ) :
    ∃ c rest, showInt i = c :: rest ∧ (c = '-' ∨ c.isDigit = true) := by
  rw [showInt]
  split_ifs
  · exact ⟨'-', _, rfl, .inl rfl⟩
  · obtain ⟨c, rest, hcons⟩ := List.exists_cons_of_ne_nil
      (Nat.toDigits_ne_nil : Nat.toDigits 10 i.natAbs ≠ [])
    refine ⟨c, rest, hcons, .inr (Nat.isDigit_of_mem_toDigits (n := i.natAbs) (b := 10) ?_ ?_ ?_)⟩
    · decide
    · decide
    · rw [hcons]
      exact List.mem_cons_self

theorem readNumber_showInt (decimal : List Char → δ) (i : ℤ) {rest : List Char} (hends : Ends rest) :
    readNumber decimal (showInt i ++ rest) = some (.int i, rest) := by
  rw [showInt]
  split_ifs with hneg
  · have habs : -(i.natAbs : ℤ) = i := by omega
    have hread := readUnsigned_toDigits decimal true i.natAbs hends
    rw [if_pos rfl, habs] at hread
    exact hread
  · have habs : (i.natAbs : ℤ) = i := by omega
    have hread := readUnsigned_toDigits decimal false i.natAbs hends
    rw [if_neg Bool.false_ne_true, habs] at hread
    rw [List.nil_append, readNumber.eq_def]
    split
    next heq =>
      have hdigit : ('-' : Char).isDigit = true := by
        apply Nat.isDigit_of_mem_toDigits (n := i.natAbs) (b := 10) (by decide) (by decide)
        obtain ⟨c, tail, hcons⟩ := List.exists_cons_of_ne_nil
          (Nat.toDigits_ne_nil : Nat.toDigits 10 i.natAbs ≠ [])
        rw [hcons, List.cons_append, List.cons.injEq] at heq
        rw [hcons, heq.1]
        exact List.mem_cons_self
      exact absurd hdigit (by decide)
    · exact hread

theorem ends_cons {c : Char} (hc : c = ',' ∨ c = ']' ∨ c = '\x7d') (rest : List Char) :
    Ends (c :: rest) := by
  intro other hother
  obtain rfl := Option.some.inj hother
  rcases hc with rfl | rfl | rfl <;> decide

theorem isBlank_of_isDigit {c : Char} (hc : c = '-' ∨ c.isDigit = true) :
    isBlank c = false ∧ c ∉ ['"', '[', '\x7b', 'n', 't', 'f', ']', '\x7d'] := by
  rcases hc with rfl | hdigit
  · decide
  · constructor
    · by_contra hblank
      simp only [isBlank, Bool.or_eq_true, decide_eq_true_eq, Bool.not_eq_false] at hblank
      rcases hblank with ((rfl | rfl) | rfl) | rfl <;> exact absurd hdigit (by decide)
    · intro hmem
      simp only [List.mem_cons, List.not_mem_nil, or_false] at hmem
      rcases hmem with rfl | rfl | rfl | rfl | rfl | rfl | rfl | rfl <;> exact absurd hdigit (by decide)

/-- What is printed begins with neither a blank nor a closing bracket. -/
theorem exists_head_str (ostream : δ → List Char) {t : JsonTree δ} (hnone : t.NoDouble) :
    ∃ c rest, t.str ostream = c :: rest ∧ isBlank c = false ∧ c ≠ ']' := by
  cases t with
  | null => exact ⟨'n', _, rfl, by decide⟩
  | bool value => cases value <;> exact ⟨_, _, rfl, by decide⟩
  | int value =>
      obtain ⟨c, rest, hcons, hc⟩ := exists_head_showInt value
      have hblank := isBlank_of_isDigit hc
      exact ⟨c, rest, hcons, hblank.1, fun heq => hblank.2 (by simp [heq])⟩
  | double value => exact absurd rfl (hnone value)
  | string text => exact ⟨'"', _, rfl, by decide⟩
  | array elements => exact ⟨'[', _, rfl, by decide⟩
  | object members => exact ⟨'\x7b', _, rfl, by decide⟩

theorem joined_cons_cons (text text' : List Char) (texts : List (List Char)) :
    JsonHeap.joined true (text :: text' :: texts) =
      text ++ ',' :: JsonHeap.joined true (text' :: texts) := by
  simp [JsonHeap.joined]

/-- The text of `t`, and anything behind it, is read as `t`. -/
def ReadsBack (ostream : δ → List Char) (decimal : List Char → δ) (t : JsonTree δ) : Prop :=
  ∀ (fuel : ℕ) (rest : List Char), (t.str ostream).length < fuel → Ends rest →
    readValue decimal fuel (t.str ostream ++ rest) = some (t, rest)

variable {ostream : δ → List Char} {decimal : List Char → δ}

theorem readElements_joined (t : JsonTree δ) (elements : List (JsonTree δ))
    (hreads : ∀ t' ∈ t :: elements, t'.ReadsBack ostream decimal) {fuel : ℕ} (rest : List Char)
    (hfuel : (JsonHeap.joined true ((t :: elements).map (str ostream))).length + 1 < fuel) :
    readElements decimal fuel
      (JsonHeap.joined true ((t :: elements).map (str ostream)) ++ ']' :: rest) =
        some (t :: elements, rest) := by
  induction elements generalizing t fuel with
  | nil =>
      obtain ⟨fuel, rfl⟩ := Nat.exists_eq_succ_of_ne_zero (Nat.ne_of_gt (Nat.zero_lt_of_lt hfuel))
      have hjoined : JsonHeap.joined true ([t].map (str ostream)) = t.str ostream := by
        simp [JsonHeap.joined]
      rw [hjoined] at hfuel ⊢
      have hvalue := hreads t List.mem_cons_self fuel (']' :: rest) (by omega)
        (ends_cons (.inr (.inl rfl)) rest)
      rw [readElements, hvalue]
      rfl
  | cons t' elements ih =>
      obtain ⟨fuel, rfl⟩ := Nat.exists_eq_succ_of_ne_zero (Nat.ne_of_gt (Nat.zero_lt_of_lt hfuel))
      rw [List.map_cons, List.map_cons, joined_cons_cons, List.length_append, List.length_cons] at hfuel
      have hshorter : (JsonHeap.joined true ((t' :: elements).map (str ostream))).length + 1 < fuel := by
        rw [List.map_cons]
        omega
      have hrest := ih t' (fun other hmem => hreads other (List.mem_cons_of_mem _ hmem)) hshorter
      rw [List.map_cons, List.map_cons, joined_cons_cons, List.append_assoc, List.cons_append]
      have hvalue := hreads t List.mem_cons_self fuel
        (',' :: (JsonHeap.joined true (t'.str ostream :: elements.map (str ostream)) ++ ']' :: rest))
        (by omega) (ends_cons (.inl rfl) _)
      rw [readElements, hvalue, ← List.map_cons]
      simp only [Option.bind_eq_bind, Option.bind_some, skipBlanks_cons (c := ',') rfl, hrest]

/-- What is printed for a member. -/
def strMember (ostream : δ → List Char) (member : List Char × JsonTree δ) : List Char :=
  JsonHeap.quoted member.1 ++ ':' :: member.2.str ostream

theorem expect_cons {c : Char} (hblank : isBlank c = false) (rest : List Char) :
    expect c (c :: rest) = some rest := by
  rw [expect, skipBlanks_cons hblank]
  exact if_pos rfl

/-- The name and the value of a member, with anything behind them. -/
theorem readMembers_strMember {name : List Char} {t : JsonTree δ} (hplain : ∀ c ∈ name, Plain c)
    (hreads : t.ReadsBack ostream decimal) {fuel : ℕ} {behind : List Char}
    (hfuel : (t.str ostream).length < fuel) (hends : Ends behind) :
    readMembers decimal (fuel + 1) (strMember ostream (name, t) ++ behind) =
      (match skipBlanks behind with
      | ',' :: rest =>
          (readMembers decimal fuel rest).bind fun read => some ((name, t) :: read.1, read.2)
      | '\x7d' :: rest => some ([(name, t)], rest)
      | _ => none) := by
  have htext : strMember ostream (name, t) ++ behind =
      '"' :: (name ++ '"' :: (':' :: (t.str ostream ++ behind))) := by
    simp [strMember, JsonHeap.quoted]
  have hlength : name.length < (name ++ '"' :: (':' :: (t.str ostream ++ behind))).length + 1 := by
    rw [List.length_append]
    omega
  have hname := readString_plain hplain (':' :: (t.str ostream ++ behind)) hlength
  rw [htext, readMembers]
  simp only [Option.bind_eq_bind, expect_cons (c := '"') rfl, Option.bind_some, hname,
    expect_cons (c := ':') rfl, hreads fuel behind hfuel hends] <;> rfl

theorem length_str_le_strMember (ostream : δ → List Char) (name : List Char) (t : JsonTree δ) :
    (t.str ostream).length ≤ (strMember ostream (name, t)).length := by
  rw [strMember, List.length_append, List.length_cons]
  exact Nat.le_add_left_of_le (Nat.le_succ _)

theorem readMembers_joined (name : List Char) (t : JsonTree δ)
    (members : List (List Char × JsonTree δ))
    (hplain : ∀ member ∈ (name, t) :: members, ∀ c ∈ member.1, Plain c)
    (hreads : ∀ member ∈ (name, t) :: members, member.2.ReadsBack ostream decimal) {fuel : ℕ}
    (rest : List Char)
    (hfuel : (JsonHeap.joined true (((name, t) :: members).map (strMember ostream))).length + 1 < fuel) :
    readMembers decimal fuel
      (JsonHeap.joined true (((name, t) :: members).map (strMember ostream)) ++ '\x7d' :: rest) =
        some ((name, t) :: members, rest) := by
  obtain ⟨fuel, rfl⟩ := Nat.exists_eq_succ_of_ne_zero (Nat.ne_of_gt (Nat.zero_lt_of_lt hfuel))
  induction members generalizing name t fuel with
  | nil =>
      have hjoined : JsonHeap.joined true ([(name, t)].map (strMember ostream)) =
          strMember ostream (name, t) := by
        simp [JsonHeap.joined]
      have hvalue := length_str_le_strMember ostream name t
      rw [hjoined] at hfuel ⊢
      have hfirst : t.ReadsBack ostream decimal := hreads _ List.mem_cons_self
      rw [readMembers_strMember (hplain _ List.mem_cons_self) hfirst (by omega)
        (ends_cons (.inr (.inr rfl)) rest)]
      rfl
  | cons member members ih =>
      obtain ⟨name', t'⟩ := member
      rw [List.map_cons, List.map_cons, joined_cons_cons, List.length_append, List.length_cons,
        ← List.map_cons] at hfuel
      have hvalue := length_str_le_strMember ostream name t
      obtain ⟨fuel, rfl⟩ : ∃ less, fuel = less + 1 := ⟨fuel - 1, by omega⟩
      have hrest := ih name' t' (fun other hmem => hplain other (List.mem_cons_of_mem _ hmem))
        (fun other hmem => hreads other (List.mem_cons_of_mem _ hmem)) fuel (by omega)
      rw [List.map_cons, List.map_cons, joined_cons_cons, List.append_assoc, List.cons_append,
        ← List.map_cons]
      have hfirst : t.ReadsBack ostream decimal := hreads _ List.mem_cons_self
      rw [readMembers_strMember (hplain _ List.mem_cons_self) hfirst (by omega)
        (ends_cons (.inl rfl) _)]
      simp only [skipBlanks_cons (c := ',') rfl, hrest, Option.bind_some]

/-- Members in the order of their names are collected as they are. -/
theorem collect_eq_self {members : List (List Char × JsonTree δ)}
    (hsorted : (members.map Prod.fst).Pairwise (· < ·)) : collect members = members := by
  let map : OrderedMap (List Char) (JsonTree δ) := ⟨members, List.pairwise_map.mp hsorted⟩
  have hentries := congrArg OrderedMap.entries (OrderedMap.foldl_insert_entries map)
  rw [OrderedMap.entries_foldl_insert] at hentries
  exact hentries

theorem readsBack_int (value : ℤ) : (int value : JsonTree δ).ReadsBack ostream decimal := by
  intro fuel rest hfuel hends
  obtain ⟨fuel, rfl⟩ := Nat.exists_eq_succ_of_ne_zero (Nat.ne_of_gt (Nat.zero_lt_of_lt hfuel))
  have hnumber := readNumber_showInt decimal value hends
  obtain ⟨c, tail, hcons, hc⟩ := exists_head_showInt value
  obtain ⟨hblank, hother⟩ := isBlank_of_isDigit hc
  simp only [List.mem_cons, List.not_mem_nil, or_false, not_or] at hother
  rw [hcons, List.cons_append] at hnumber
  rw [str, hcons, List.cons_append, readValue, skipBlanks_cons hblank]
  simp only [hother, if_false, hnumber]

theorem readsBack_string {text : List Char} (hplain : ∀ c ∈ text, Plain c) :
    (string text : JsonTree δ).ReadsBack ostream decimal := by
  intro fuel rest hfuel hends
  obtain ⟨fuel, rfl⟩ := Nat.exists_eq_succ_of_ne_zero (Nat.ne_of_gt (Nat.zero_lt_of_lt hfuel))
  have htext : (string text : JsonTree δ).str ostream ++ rest = '"' :: (text ++ '"' :: rest) := by
    simp [str, JsonHeap.quoted]
  have hlength : text.length < (text ++ '"' :: rest).length + 1 := by
    rw [List.length_append]
    omega
  rw [htext, readValue, skipBlanks_cons (by decide)]
  simp only [if_true, readString_plain hplain rest hlength]
  rfl

theorem readsBack_array {elements : List (JsonTree δ)} (hnone : ∀ t ∈ elements, t.NoDouble)
    (hreads : ∀ t ∈ elements, t.ReadsBack ostream decimal) :
    (array elements).ReadsBack ostream decimal := by
  intro fuel rest hfuel hends
  obtain ⟨fuel, rfl⟩ := Nat.exists_eq_succ_of_ne_zero (Nat.ne_of_gt (Nat.zero_lt_of_lt hfuel))
  cases elements with
  | nil => rfl
  | cons t elements =>
      rw [str, strElements_eq_map] at hfuel ⊢
      have htext : ['['] ++ JsonHeap.joined true ((t :: elements).map (str ostream)) ++ [']'] ++ rest =
          '[' :: (JsonHeap.joined true ((t :: elements).map (str ostream)) ++ ']' :: rest) := by simp
      have hopen : expect ']' (JsonHeap.joined true ((t :: elements).map (str ostream)) ++ ']' :: rest) =
          none := by
        obtain ⟨c, tail, hcons, hblank, hc⟩ := exists_head_str ostream (hnone t List.mem_cons_self)
        rw [List.map_cons, JsonHeap.joined, if_pos rfl, List.nil_append, hcons, List.cons_append,
          List.cons_append, expect, skipBlanks_cons hblank, List.head?_cons]
        exact if_neg fun heq => hc (Option.some.inj heq)
      simp only [List.length_append, List.length_singleton] at hfuel
      have helements := readElements_joined t elements hreads rest
        (show _ < fuel from Nat.lt_of_succ_lt_succ (by omega))
      rw [htext, readValue, skipBlanks_cons (by decide)]
      simp only [hopen, helements]
      rfl

theorem readsBack_object {members : List (List Char × JsonTree δ)}
    (hplain : ∀ member ∈ members, ∀ c ∈ member.1, Plain c)
    (hsorted : (members.map Prod.fst).Pairwise (· < ·))
    (hreads : ∀ member ∈ members, member.2.ReadsBack ostream decimal) :
    (object members).ReadsBack ostream decimal := by
  intro fuel rest hfuel hends
  obtain ⟨fuel, rfl⟩ := Nat.exists_eq_succ_of_ne_zero (Nat.ne_of_gt (Nat.zero_lt_of_lt hfuel))
  rcases members with _ | ⟨⟨name, t⟩, members⟩
  · rfl
  · have hmap : strMembers ostream ((name, t) :: members) =
        ((name, t) :: members).map (strMember ostream) := strMembers_eq_map ostream _
    rw [str, hmap] at hfuel ⊢
    have htext : ['\x7b'] ++ JsonHeap.joined true (((name, t) :: members).map (strMember ostream)) ++
        ['\x7d'] ++ rest = '\x7b' ::
          (JsonHeap.joined true (((name, t) :: members).map (strMember ostream)) ++ '\x7d' :: rest) := by
      simp
    have hopen : expect '\x7d'
        (JsonHeap.joined true (((name, t) :: members).map (strMember ostream)) ++ '\x7d' :: rest) =
          none := by
      rw [List.map_cons, JsonHeap.joined, if_pos rfl, List.nil_append, strMember, JsonHeap.quoted]
      rfl
    simp only [List.length_append, List.length_singleton] at hfuel
    have hmembers := readMembers_joined name t members hplain hreads rest
      (show _ < fuel from Nat.lt_of_succ_lt_succ (by omega))
    rw [htext, readValue, skipBlanks_cons (by decide)]
    simp only [hopen, hmembers, Option.map_some, collect_eq_self hsorted]
    rfl

/-- What is printed for a tree is read as the tree. -/
theorem readsBack_of_isPlain (ostream : δ → List Char) (decimal : List Char → δ) (t : JsonTree δ)
    (hnone : t.NoDouble) (hplain : t.IsPlain) (hsorted : t.Sorted) :
    t.ReadsBack ostream decimal := by
  induction t using JsonTree.induction with
  | null =>
      intro fuel rest hfuel hends
      obtain ⟨fuel, rfl⟩ := Nat.exists_eq_succ_of_ne_zero (Nat.ne_of_gt (Nat.zero_lt_of_lt hfuel))
      rfl
  | bool value =>
      intro fuel rest hfuel hends
      obtain ⟨fuel, rfl⟩ := Nat.exists_eq_succ_of_ne_zero (Nat.ne_of_gt (Nat.zero_lt_of_lt hfuel))
      cases value <;> rfl
  | int value => exact readsBack_int value
  | double value => exact absurd rfl (hnone value)
  | string text => exact readsBack_string (hplain text rfl)
  | array elements ih =>
      have hnone := allElements_iff.mp hnone
      have hplain := allElements_iff.mp hplain
      have hsorted := allElements_iff.mp hsorted
      exact readsBack_array hnone fun t hmem =>
        ih t hmem (hnone t hmem) (hplain t hmem) (hsorted t hmem)
  | object members ih =>
      have hnone := allMembers_iff.mp hnone.2
      obtain ⟨hnames, hplain⟩ := hplain
      have hplain := allMembers_iff.mp hplain
      obtain ⟨horder, hsorted⟩ := hsorted
      have hsorted := allMembers_iff.mp hsorted
      exact readsBack_object (fun member hmem => hnames _ (List.mem_map_of_mem hmem)) horder
        fun member hmem => ih member hmem (hnone member hmem) (hplain member hmem) (hsorted member hmem)

theorem read_str_iff (ostream : δ → List Char) (decimal : List Char → δ) (t : JsonTree δ)
    (hnone : t.NoDouble) (hsorted : t.Sorted) :
    JsonText.read decimal (t.str ostream) = some t ↔ t.IsPlain := by
  constructor
  · intro hread
    exact (length_str_le ostream t hnone).2 (width_le_length hread)
  · intro hplain
    have hends : Ends [] := fun c hc => by cases hc
    have hread := readsBack_of_isPlain ostream decimal t hnone hplain hsorted
      ((t.str ostream).length + 1) [] (Nat.lt_succ_self _) hends
    rw [List.append_nil] at hread
    rw [JsonText.read, hread]
    rfl

end JsonTree

namespace JsonHeap

variable {heap heap' : JsonHeap δ} {addr addr' : ℕ} {t t' : JsonTree δ} {footprint footprint' : List ℕ}
  {j j' : Json δ}

/-- The members of an object are in the order of the map. -/
theorem Holds.sorted (hholds : heap.Holds addr t footprint) : t.Sorted := by
  induction hholds with
  | array _ _ _ ih =>
      refine JsonTree.allElements_iff.mpr fun t hmem => ?_
      obtain ⟨cell, hcell, rfl⟩ := List.mem_map.mp hmem
      exact ih cell hcell
  | @object _ _ cells entries _ _ hentries _ ih =>
      refine ⟨?_, JsonTree.allMembers_iff.mpr fun member hmem => ?_⟩
      · have hnames : (cells.map fun cell => (cell.name, cell.tree)).map Prod.fst =
            entries.entries.map Prod.fst := by
          rw [hentries, List.map_map, List.map_map]
          rfl
        rw [hnames]
        exact List.pairwise_map.mpr entries.sorted
      · obtain ⟨cell, hcell, rfl⟩ := List.mem_map.mp hmem
        exact ih cell hcell
  | _ => trivial

/-- `str` prints a JSON text that denotes the value exactly if no string and no name
has a character that has to be escaped.  Such values with the same text are the
same. -/
theorem str_denotes_iff (ostream : δ → List Char) (decimal : List Char → δ)
    (hholds : heap.Holds addr t footprint) (hnode : heap.nodes addr = some j) (hnone : t.NoDouble)
    {fuel : ℕ} (hfuel : footprint.length ≤ fuel) :
    ((heap.str ostream fuel j).bind (JsonText.read decimal) = some t ↔ t.IsPlain) ∧
      ∀ {heap' : JsonHeap δ} {addr' : ℕ} {t' : JsonTree δ} {footprint' : List ℕ} {j' : Json δ}
        {fuel' : ℕ}, heap'.Holds addr' t' footprint' → heap'.nodes addr' = some j' → t'.NoDouble →
        footprint'.length ≤ fuel' → t.IsPlain → t'.IsPlain →
        heap.str ostream fuel j = heap'.str ostream fuel' j' → t = t' := by
  have hread := JsonTree.read_str_iff ostream decimal t hnone hholds.sorted
  rw [hholds.str ostream hnode hfuel]
  refine ⟨hread, ?_⟩
  intro heap' addr' t' footprint' j' fuel' hholds' hnode' hnone' hfuel' hplain hplain' hsame
  rw [hholds'.str ostream hnode' hfuel', Option.some.injEq] at hsame
  have hread' := JsonTree.read_str_iff ostream decimal t' hnone' hholds'.sorted
  have hsameTree := hread.mpr hplain
  rw [hsame, hread'.mpr hplain', Option.some.injEq] at hsameTree
  exact hsameTree.symm

/-- `Json("a")`. -/
theorem str_denotes_letter :
    (((ofScalar (NodeHeap.empty : JsonHeap ℕ) (.string ['a'])).str (fun _ => []) 2
      ⟨.jsonString, .mString 0⟩).bind (JsonText.read fun _ => 0) = some (.string ['a'])) := by
  have hholds : Holds (ofScalar (NodeHeap.empty : JsonHeap ℕ) (.string ['a'])) 1 (.string ['a']) [1, 0] :=
    .string rfl rfl
  have hplain : (JsonTree.string ['a'] : JsonTree ℕ).IsPlain := by
    intro text heq
    obtain rfl := JsonTree.string.inj heq
    intro c hc
    obtain rfl := List.mem_singleton.mp hc
    decide
  exact (str_denotes_iff _ _ hholds rfl (by rintro value ⟨⟩) (Nat.le_refl 2)).1.mpr hplain

/-- `Json("\"")` prints three quotes. -/
theorem str_of_quote :
    Holds (ofScalar (NodeHeap.empty : JsonHeap ℕ) (.string ['"'])) 1 (.string ['"']) [1, 0] ∧
      (ofScalar (NodeHeap.empty : JsonHeap ℕ) (.string ['"'])).str (fun _ => []) 2
        ⟨.jsonString, .mString 0⟩ = some ['"', '"', '"'] ∧
      (JsonText.read (fun _ => 0) ['"', '"', '"'] : Option (JsonTree ℕ)).isNone := by
  exact ⟨.string rfl rfl, rfl, by decide⟩

end JsonHeap

end CppProjects
