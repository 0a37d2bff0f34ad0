import Mathlib.Data.List.Forall2
import CppProjects.Http.QueryString

/-!
# `parse_query`

The keys and the values are pointers into a copy of the query until the loop is
over, and are duplicated from there.
-/

namespace CppProjects

namespace ParseQuery

open CString UrlDecode QueryString

/-- `char *temp_keys[100]` and `char *temp_values[100]`. -/
def tableSize : ℕ := 100

/-- A row of the two tables; no offset is the literal `""`. -/
structure Entry where
  key : ℕ
  value : Option ℕ
  deriving DecidableEq, Repr

def Entry.valueAt (entry : Entry) (block : List UInt8) : Option (List UInt8) :=
  match entry.value with
  | none => some []
  | some value => stringAt block value

/-- The `while` loop, entered with what `strtok` has returned: the block and the
rows it leaves, or none when an access is out of bounds. -/
def collect (pair : Option (Token UInt8)) (block : List UInt8) (entries : List Entry) :
    Option (List UInt8 × List Entry) :=
  match pair with
  | none => some (block, entries)
  | some token =>
      if entries.length < tableSize then
        (strchr equals token.block token.first).bind fun eq =>
          let block := eq.elim token.block fun eq => token.block.set eq 0
          (strtok ampersand block token.saved).bind fun next =>
            collect next block (entries ++ [⟨token.first, eq.map (· + 1)⟩])
      else some (token.block, entries)
  termination_by tableSize - entries.length
  decreasing_by simp only [List.length_append, List.length_singleton]; omega

structure Parameters where
  count : ℕ
  keys : List (List UInt8)
  values : List (List UInt8)
  deriving DecidableEq, Repr

/-- `parse_query`, where the query may be `NULL`; with nothing to parse, only
`*count` is written. -/
def parseQuery (query : Option (List UInt8)) : Option Parameters :=
  match query with
  | none | some [] => some ⟨0, [], []⟩
  | some query => do
      let pair ← strtok ampersand (query ++ [0]) 0
      let (block, entries) ← collect pair (query ++ [0]) []
      let keys ← entries.mapM fun entry => stringAt block entry.key
      let values ← entries.mapM fun entry => entry.valueAt block
      return ⟨entries.length, keys, values⟩

/-- The row's pointers lead to the strings of the pair. -/
structure Entry.Holds (block : List UInt8) (entry : Entry) (pair : Pair) : Prop where
  key : stringAt block entry.key = some pair.1
  value : entry.valueAt block = some pair.2

section Collect

variable {behind block : List UInt8} {pairs : List Pair} {entries : List Entry}

/-- The loop keeps what stands before the next token, and fills the rest of the
tables with the pairs that follow. -/
theorem collect_joined (hpairs : ∀ pair ∈ pairs, Separable pair) (before : List UInt8)
    (entries : List Entry) :
    ∃ rest added,
      ((strtok ampersand (before ++ (joined pairs ++ 0 :: behind)) before.length).bind fun pair =>
          collect pair (before ++ (joined pairs ++ 0 :: behind)) entries) =
        some (before ++ rest, entries ++ added) ∧
      (pairs = [] → rest = 0 :: behind) ∧
      List.Forall₂ (Entry.Holds (before ++ rest)) added
        (pairs.take (tableSize - entries.length)) := by
  induction pairs generalizing before entries with
  | nil =>
      have hend : strtok ampersand (before ++ (joined [] ++ 0 :: behind)) before.length =
        some none := strtok_end
      refine ⟨0 :: behind, [], ?_, fun _ => rfl, ?_⟩
      · rw [hend, Option.bind_some, collect, List.append_nil]
        rfl
      · rw [List.take_nil]
        exact .nil
  | cons pair pairs ih =>
      have hpair := hpairs pair List.mem_cons_self
      obtain ⟨closing, rest, htoken, hrest, hclosing⟩ := strtok_joined before behind hpairs
      obtain ⟨hset, -, -⟩ := split_assignment before rest hpair
      rw [htoken, Option.bind_some, collect]
      by_cases hroom : entries.length < tableSize
      · rw [if_pos hroom, strchr_assignment hpair, Option.bind_some]
        simp only [Option.elim_some, Option.map_some, hset]
        obtain ⟨rest', added, hcollect, hlast, hadded⟩ :=
          ih (fun other hother => hpairs other (List.mem_cons_of_mem _ hother))
            (taken before pair closing)
            (entries ++ [⟨before.length, some (before.length + pair.1.length + 1)⟩])
        -- The value is closed by what was written over the `&` or by the final zero.
        obtain ⟨tail, htail⟩ : ∃ tail, closing ++ rest' = 0 :: tail := by
          rcases hclosing with rfl | hpairs
          · exact ⟨rest', rfl⟩
          · rw [hlast hpairs]
            rw [hpairs] at hrest
            exact ⟨rest, hrest⟩
        obtain ⟨-, hkey, hvalue⟩ := split_assignment before tail hpair
        rw [taken_append hrest, length_taken, taken_append htail] at hcollect
        rw [taken_append htail, List.length_append, List.length_singleton,
          ← Nat.sub_sub] at hadded
        refine ⟨pair.1 ++ 0 :: (pair.2 ++ 0 :: tail),
          ⟨before.length, some (before.length + pair.1.length + 1)⟩ :: added, ?_,
          fun hnil => absurd hnil (List.cons_ne_nil pair pairs), ?_⟩
        · rw [hcollect, List.append_assoc, List.singleton_append]
        · obtain ⟨room, hroom⟩ : ∃ room, tableSize - entries.length = room + 1 :=
            ⟨tableSize - entries.length - 1, by omega⟩
          rw [hroom, Nat.add_sub_cancel] at hadded
          rw [hroom, List.take_succ_cons]
          exact .cons ⟨hkey, hvalue⟩ hadded
      · refine ⟨assignment pair ++ 0 :: rest, [], ?_,
          fun hnil => absurd hnil (List.cons_ne_nil pair pairs), ?_⟩
        · rw [if_neg hroom, List.append_nil]
        · rw [Nat.sub_eq_zero_of_le (by omega), List.take_zero]
          exact .nil

theorem mapM_of_forall₂ {f : Entry → Option (List UInt8)} {g : Pair → List UInt8}
    (hholds : List.Forall₂ (fun entry pair => f entry = some (g pair)) entries pairs) :
    entries.mapM f = some (pairs.map g) := by
  induction hholds with
  | nil => rfl
  | cons hentry _ ih => simp [List.mapM_cons, hentry, ih]

/-- The strings that the rows lead to are duplicated. -/
theorem parseQuery_of_collect {query : List UInt8} (hquery : query ≠ [])
    (hcollect : ((strtok ampersand (query ++ [0]) 0).bind fun pair =>
      collect pair (query ++ [0]) []) = some (block, entries))
    (hholds : List.Forall₂ (Entry.Holds block) entries pairs) :
    parseQuery (some query) = some ⟨pairs.length, pairs.map Prod.fst, pairs.map Prod.snd⟩ := by
  have hkeys : (entries.mapM fun entry => stringAt block entry.key) = some (pairs.map Prod.fst) :=
    mapM_of_forall₂ (hholds.imp fun _ _ hentry => hentry.key)
  have hvalues : (entries.mapM fun entry => entry.valueAt block) = some (pairs.map Prod.snd) :=
    mapM_of_forall₂ (hholds.imp fun _ _ hentry => hentry.value)
  obtain ⟨pair, hpair, hpairs⟩ := Option.bind_eq_some_iff.mp hcollect
  cases query with
  | nil => exact absurd rfl hquery
  | cons c query =>
      simp only [parseQuery, Option.bind_eq_bind, Option.pure_def, hpair, hpairs, hkeys, hvalues,
        Option.bind_some, hholds.length_eq]

/-- The first hundred pairs are parsed. -/
theorem parseQuery_joined (hpairs : ∀ pair ∈ pairs, Separable pair) :
    parseQuery (some (joined pairs)) =
      some ⟨(pairs.take tableSize).length, (pairs.take tableSize).map Prod.fst,
        (pairs.take tableSize).map Prod.snd⟩ := by
  cases pairs with
  | nil => rfl
  | cons pair pairs =>
      obtain ⟨rest, added, hcollect, -, hadded⟩ := collect_joined hpairs [] []
      have hquery : joined (pair :: pairs) ≠ [] := by
        cases pairs <;> simp [joined, assignment]
      exact parseQuery_of_collect hquery hcollect hadded

/-- All pairs come back, in order, exactly when the tables have a row for each. -/
theorem parseQuery_joined_iff (hpairs : ∀ pair ∈ pairs, Separable pair) :
    parseQuery (some (joined pairs)) =
        some ⟨pairs.length, pairs.map Prod.fst, pairs.map Prod.snd⟩ ↔
      pairs.length ≤ tableSize := by
  rw [parseQuery_joined hpairs]
  constructor
  · intro hsame
    rw [Option.some.injEq, Parameters.mk.injEq] at hsame
    have hlength := hsame.1
    rw [List.length_take] at hlength
    omega
  · intro hlength
    rw [List.take_of_length_le hlength]

end Collect

/-- `=&k=v=w`: an empty key with an empty value, and a `=` in a value. -/
theorem parseQuery_joined_two :
    parseQuery (some [0x3d, 0x26, 0x6b, 0x3d, 0x76, 0x3d, 0x77]) =
      some ⟨2, [[], [0x6b]], [[], [0x76, 0x3d, 0x77]]⟩ := by
  have hpairs : ∀ pair ∈ [([], []), ([0x6b], [0x76, 0x3d, 0x77])], Separable pair := by
    intro pair hpair
    simp only [List.mem_cons, List.not_mem_nil, or_false] at hpair
    rcases hpair with rfl | rfl
    · exact ⟨by decide, by decide, by decide⟩
    · exact ⟨by decide, by decide, by decide⟩
  exact (parseQuery_joined_iff hpairs).mpr (by decide)

/-- Of 101 pairs `k=v`, the last one is lost. -/
theorem parseQuery_loses :
    let pairs : List Pair := List.replicate 101 ([0x6b], [0x76])
    (∀ pair ∈ pairs, Separable pair) ∧
      parseQuery (some (joined pairs)) =
        some ⟨100, List.replicate 100 [0x6b], List.replicate 100 [0x76]⟩ := by
  intro pairs
  have hpairs : ∀ pair ∈ pairs, Separable pair := by
    intro pair hpair
    rw [List.eq_of_mem_replicate hpair]
    exact ⟨by decide, by decide, by decide⟩
  have hfirst : pairs.take tableSize = List.replicate 100 ([0x6b], [0x76]) := by
    rw [tableSize, List.take_replicate]
    rfl
  have hparsed := parseQuery_joined hpairs
  rw [hfirst, List.length_replicate, List.map_replicate, List.map_replicate] at hparsed
  exact ⟨hpairs, hparsed⟩

end ParseQuery

end CppProjects
