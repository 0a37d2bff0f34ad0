import Mathlib.Tactic
import Mathlib.Data.List.Sort
import Mathlib.Data.List.Lex

/-!
# Ordered maps

`std::map` as the sequence its iterators visit: entries in strictly increasing
order of their keys.  The order is a field of the structure, so two maps with
the same lookups are the same map, and inserting the entries of a map one after
another rebuilds it.
-/

namespace CppProjects

structure OrderedMap (κ ν : Type) [LinearOrder κ] where
  entries : List (κ × ν)
  sorted : entries.Pairwise fun left right => left.1 < right.1

namespace OrderedMap

variable {κ ν : Type} [LinearOrder κ]

def empty : OrderedMap κ ν := ⟨[], List.Pairwise.nil⟩

def lookup? (key : κ) : List (κ × ν) → Option ν
  | [] => none
  | entry :: rest => if entry.1 = key then some entry.2 else lookup? key rest

/-- Insertion at the key's place, replacing a value that is already there. -/
def insertEntry (key : κ) (val : ν) : List (κ × ν) → List (κ × ν)
  | [] => [(key, val)]
  | entry :: rest =>
      if key < entry.1 then (key, val) :: entry :: rest
      else if key = entry.1 then (key, val) :: rest
      else entry :: insertEntry key val rest

theorem mem_insertEntry {key : κ} {val : ν} {entry : κ × ν} {entries : List (κ × ν)}
    (hmem : entry ∈ insertEntry key val entries) : entry = (key, val) ∨ entry ∈ entries := by
  induction entries with
  | nil => simpa [insertEntry] using hmem
  | cons head rest ih =>
      rw [insertEntry] at hmem
      split_ifs at hmem with hlt heq
      · simpa using hmem
      · rcases List.mem_cons.mp hmem with hnew | hold
        · exact Or.inl hnew
        · exact Or.inr (List.mem_cons_of_mem _ hold)
      · rcases List.mem_cons.mp hmem with hhead | hrest
        · exact Or.inr (by simp [hhead])
        · exact (ih hrest).imp id (List.mem_cons_of_mem _)

theorem insertEntry_sorted (key : κ) (val : ν) {entries : List (κ × ν)}
    (hsorted : entries.Pairwise fun left right => left.1 < right.1) :
    (insertEntry key val entries).Pairwise fun left right => left.1 < right.1 := by
  induction entries with
  | nil => simp [insertEntry]
  | cons head rest ih =>
      obtain ⟨hhead, hrest⟩ := List.pairwise_cons.mp hsorted
      rw [insertEntry]
      split_ifs with hlt heq
      · refine List.pairwise_cons.mpr ⟨?_, hsorted⟩
        intro entry hmem
        rcases List.mem_cons.mp hmem with rfl | hmem
        · exact hlt
        · exact hlt.trans (hhead entry hmem)
      · subst heq
        exact List.pairwise_cons.mpr ⟨hhead, hrest⟩
      · refine List.pairwise_cons.mpr ⟨?_, ih hrest⟩
        intro entry hmem
        rcases mem_insertEntry hmem with rfl | hmem
        · exact lt_of_le_of_ne (not_lt.mp hlt) (Ne.symm heq)
        · exact hhead entry hmem

theorem zip_sorted {μ : Type} {keys : List κ} (hsorted : keys.Pairwise (· < ·)) (values : List μ) :
    (keys.zip values).Pairwise fun left right => left.1 < right.1 := by
  induction keys generalizing values with
  | nil => exact List.Pairwise.nil
  | cons key keys ih =>
      obtain ⟨hkey, hkeys⟩ := List.pairwise_cons.mp hsorted
      cases values with
      | nil => exact List.Pairwise.nil
      | cons val values =>
          refine List.pairwise_cons.mpr ⟨?_, ih hkeys values⟩
          exact fun entry hmem => hkey _ (List.of_mem_zip hmem).1

/-- The keys of a map, with other values. -/
def withValues {μ : Type} (map : OrderedMap κ ν) (values : List μ) : OrderedMap κ μ :=
  ⟨(map.entries.map Prod.fst).zip values, zip_sorted (List.pairwise_map.mpr map.sorted) values⟩

def find? (map : OrderedMap κ ν) (key : κ) : Option ν := lookup? key map.entries

/-- `map[key] = val`. -/
def insert (map : OrderedMap κ ν) (key : κ) (val : ν) : OrderedMap κ ν :=
  ⟨insertEntry key val map.entries, insertEntry_sorted key val map.sorted⟩

@[simp]
theorem find?_empty (key : κ) : (empty : OrderedMap κ ν).find? key = none := rfl

theorem lookup?_insertEntry (entries : List (κ × ν)) (key other : κ) (val : ν) :
    lookup? other (insertEntry key val entries) =
      if other = key then some val else lookup? other entries := by
  induction entries with
  | nil => simp [insertEntry, lookup?, eq_comm]
  | cons head rest ih =>
      rw [insertEntry]
      split_ifs with hlt heq hother hother <;> grind [lookup?]

@[simp]
theorem find?_insert (map : OrderedMap κ ν) (key other : κ) (val : ν) :
    (map.insert key val).find? other = if other = key then some val else map.find? other :=
  lookup?_insertEntry map.entries key other val

theorem lookup?_eq_none_of_lt {key : κ} {entries : List (κ × ν)}
    (hlt : ∀ entry ∈ entries, key < entry.1) : lookup? key entries = none := by
  induction entries with
  | nil => rfl
  | cons head rest ih =>
      rw [lookup?, if_neg (hlt head List.mem_cons_self).ne']
      exact ih fun entry hmem => hlt entry (List.mem_cons_of_mem _ hmem)

theorem isSome_lookup?_iff {key : κ} {entries : List (κ × ν)} :
    (lookup? key entries).isSome ↔ key ∈ entries.map Prod.fst := by
  induction entries with
  | nil => simp [lookup?]
  | cons head rest ih =>
      rw [lookup?, List.map_cons, List.mem_cons]
      split_ifs with hkey
      · exact iff_of_true rfl (.inl hkey.symm)
      · rw [ih, or_iff_right (Ne.symm hkey)]

theorem insertEntry_insertEntry (key : κ) (val val' : ν) (entries : List (κ × ν)) :
    insertEntry key val' (insertEntry key val entries) = insertEntry key val' entries := by
  induction entries with
  | nil => simp [insertEntry]
  | cons head rest ih =>
      rw [insertEntry, insertEntry]
      split_ifs with hlt heq
      · rw [insertEntry, if_neg (lt_irrefl _), if_pos rfl]
      · rw [insertEntry, if_neg (lt_irrefl _), if_pos rfl]
      · rw [insertEntry, if_neg hlt, if_neg heq, ih]

theorem insertEntry_comm {key key' : κ} (hne : key ≠ key') (val val' : ν) (entries : List (κ × ν)) :
    insertEntry key val (insertEntry key' val' entries) =
      insertEntry key' val' (insertEntry key val entries) := by
  induction entries with
  | nil => grind [insertEntry]
  | cons head rest ih => grind [insertEntry]

/-- The place of a key in a sequence that is in the order of its keys. -/
theorem exists_place {α : Type} (name : α → κ) (key : κ) {l : List α}
    (hsorted : (l.map name).Pairwise (· < ·)) :
    ∃ (before : List α) (found : Option α) (after : List α),
      l = before ++ (found.toList ++ after) ∧ (∀ x ∈ found, name x = key) ∧
      ∀ {ν : Type} (f : α → ν),
        lookup? key (l.map fun x => (name x, f x)) = found.map f ∧
        ∀ val, insertEntry key val (l.map fun x => (name x, f x)) =
          (before.map fun x => (name x, f x)) ++ (key, val) :: after.map fun x => (name x, f x) := by
  induction l with
  | nil => exact ⟨[], none, [], rfl, by simp, fun f => ⟨rfl, fun val => rfl⟩⟩
  | cons head rest ih =>
      obtain ⟨hhead, hrest⟩ := List.pairwise_cons.mp hsorted
      rcases lt_trichotomy key (name head) with hlt | rfl | hgt
      · refine ⟨[], none, head :: rest, rfl, by simp, fun f => ⟨?_, fun val => ?_⟩⟩
        · apply lookup?_eq_none_of_lt
          intro entry hmem
          obtain ⟨x, hx, rfl⟩ := List.mem_map.mp hmem
          rcases List.mem_cons.mp hx with rfl | hx
          · exact hlt
          · exact hlt.trans (hhead _ (List.mem_map_of_mem hx))
        · rw [List.map_cons, insertEntry, if_pos hlt]
          rfl
      · refine ⟨[], some head, rest, rfl, fun x hx => ?_, fun f => ⟨?_, fun val => ?_⟩⟩
        · rw [Option.mem_some_iff.mp hx]
        · rw [List.map_cons, lookup?, if_pos rfl]
          rfl
        · rw [List.map_cons, insertEntry, if_neg (lt_irrefl _), if_pos rfl]
          rfl
      · obtain ⟨before, found, after, hsplit, hname, hplace⟩ := ih hrest
        refine ⟨head :: before, found, after, congrArg (head :: ·) hsplit, hname, fun f => ?_⟩
        refine ⟨?_, fun val => ?_⟩
        · rw [List.map_cons, lookup?, if_neg hgt.ne]
          exact (hplace f).1
        · rw [List.map_cons, insertEntry, if_neg hgt.not_gt, if_neg hgt.ne', (hplace f).2]
          rfl

theorem lookup?_eq_some_iff {key : κ} {val : ν} {entries : List (κ × ν)}
    (hsorted : entries.Pairwise fun left right => left.1 < right.1) :
    lookup? key entries = some val ↔ (key, val) ∈ entries := by
  induction entries with
  | nil => simp [lookup?]
  | cons head rest ih =>
      obtain ⟨hhead, hrest⟩ := List.pairwise_cons.mp hsorted
      rw [lookup?, List.mem_cons]
      by_cases hkey : head.1 = key
      · rw [if_pos hkey]
        have habsent : (key, val) ∉ rest := fun hmem =>
          absurd (hhead _ hmem) (by simp [hkey])
        constructor
        · intro hval
          left
          rw [← hkey, ← Option.some.inj hval]
        · rintro (hentry | hmem)
          · rw [← hentry]
          · exact absurd hmem habsent
      · rw [if_neg hkey, ih hrest]
        constructor
        · exact Or.inr
        · rintro (hentry | hmem)
          · exact absurd (congrArg Prod.fst hentry.symm) hkey
          · exact hmem

/-- Maps with the same lookups are the same. -/
theorem ext_find? {left right : OrderedMap κ ν} (hfind : ∀ key, left.find? key = right.find? key) :
    left = right := by
  obtain ⟨left, hleft⟩ := left
  obtain ⟨right, hright⟩ := right
  have hmem : ∀ entry, entry ∈ left ↔ entry ∈ right := by
    rintro ⟨key, val⟩
    rw [← lookup?_eq_some_iff hleft, ← lookup?_eq_some_iff hright]
    exact iff_of_eq (congrArg (· = some val) (hfind key))
  have hperm : left.Perm right :=
    (List.perm_ext_iff_of_nodup (hleft.imp fun hlt heq => absurd (congrArg Prod.fst heq) hlt.ne)
      (hright.imp fun hlt heq => absurd (congrArg Prod.fst heq) hlt.ne)).mpr hmem
  have heq : left = right := hperm.eq_of_pairwise
    (fun first second _ _ hlt hgt => absurd hlt (not_lt.mpr hgt.le)) hleft hright
  subst heq
  rfl

theorem ext_entries {left right : OrderedMap κ ν} (hentries : left.entries = right.entries) :
    left = right := by
  cases left
  cases right
  cases hentries
  rfl

/-- A new key gets a place between the others. -/
theorem entries_insert_of_none {map : OrderedMap κ ν} {key : κ} (hnone : map.find? key = none)
    (val : ν) : ∃ before after, map.entries = before ++ after ∧
      (map.insert key val).entries = before ++ (key, val) :: after := by
  obtain ⟨entries, hsorted⟩ := map
  change lookup? key entries = none at hnone
  change ∃ before after, entries = before ++ after ∧
    insertEntry key val entries = before ++ (key, val) :: after
  clear hsorted
  induction entries with
  | nil => exact ⟨[], [], rfl, rfl⟩
  | cons head rest ih =>
      rw [lookup?] at hnone
      split_ifs at hnone with heq
      rw [insertEntry]
      split_ifs with hlt heq'
      · exact ⟨[], head :: rest, rfl, rfl⟩
      · exact absurd heq'.symm heq
      · obtain ⟨before, after, hentries, hinsert⟩ := ih hnone
        exact ⟨head :: before, after, congrArg (head :: ·) hentries, congrArg (head :: ·) hinsert⟩

theorem insert_insert (map : OrderedMap κ ν) (key : κ) (val val' : ν) :
    (map.insert key val).insert key val' = map.insert key val' := by
  apply ext_find?
  intro other
  simp only [find?_insert]
  split_ifs <;> rfl

theorem insert_self {map : OrderedMap κ ν} {key : κ} {val : ν} (hfind : map.find? key = some val) :
    map.insert key val = map := by
  apply ext_find?
  intro other
  rw [find?_insert]
  split_ifs with heq
  · rw [heq, hfind]
  · rfl

/-- `map[key]`, which inserts `default` for a new key. -/
def index (map : OrderedMap κ ν) (key : κ) (default : ν) : ν × OrderedMap κ ν :=
  match map.find? key with
  | some val => (val, map)
  | none => (default, map.insert key default)

theorem index_of_find? {map : OrderedMap κ ν} {key : κ} {val : ν} (hfind : map.find? key = some val)
    (default : ν) : map.index key default = (val, map) := by
  rw [index, hfind]

theorem index_fst (map : OrderedMap κ ν) (key : κ) (default : ν) :
    (map.index key default).1 = (map.find? key).getD default := by
  rw [index]
  cases map.find? key <;> rfl

/-- What follows an assignment to `map[key]`. -/
theorem insert_index (map : OrderedMap κ ν) (key : κ) (default val : ν) :
    (map.index key default).2.insert key val = map.insert key val := by
  rw [index]
  cases map.find? key with
  | none => exact insert_insert map key default val
  | some old => rfl

/-- `map.erase(key)`. -/
def erase (map : OrderedMap κ ν) (key : κ) : OrderedMap κ ν :=
  ⟨map.entries.filter fun entry => entry.1 ≠ key, map.sorted.filter _⟩

@[simp]
theorem find?_erase (map : OrderedMap κ ν) (key other : κ) :
    (map.erase key).find? other = if other = key then none else map.find? other := by
  obtain ⟨entries, hsorted⟩ := map
  change lookup? other (entries.filter fun entry => entry.1 ≠ key) =
    if other = key then none else lookup? other entries
  clear hsorted
  induction entries with
  | nil => simp [lookup?]
  | cons head rest ih =>
      rw [List.filter_cons]
      split_ifs with hkept hother hother <;> grind [lookup?]

/-- Looking up a key after a run of insertions under distinct keys. -/
theorem find?_foldl_insert (entries : List (κ × ν)) (map : OrderedMap κ ν) (key : κ)
    (hsorted : entries.Pairwise fun left right => left.1 < right.1) :
    (entries.foldl (fun map entry => map.insert entry.1 entry.2) map).find? key =
      (lookup? key entries).or (map.find? key) := by
  induction entries generalizing map with
  | nil => rfl
  | cons head rest ih =>
      obtain ⟨hhead, hrest⟩ := List.pairwise_cons.mp hsorted
      rw [List.foldl_cons, ih (map.insert head.1 head.2) hrest, find?_insert, lookup?]
      by_cases hkey : head.1 = key
      · have habsent : lookup? key rest = none := by
          rw [Option.eq_none_iff_forall_ne_some]
          intro val hval
          exact absurd (hhead _ ((lookup?_eq_some_iff hrest).mp hval)) (by simp [hkey])
        simp [hkey, habsent]
      · simp [hkey, Ne.symm hkey]

/-- Inserting the entries of a map in order rebuilds the map. -/
theorem foldl_insert_entries (map : OrderedMap κ ν) :
    map.entries.foldl (fun map entry => map.insert entry.1 entry.2) empty = map := by
  apply ext_find?
  intro key
  rw [find?_foldl_insert map.entries empty key map.sorted, find?_empty, Option.or_none]
  rfl

/-- Looking up a key after a run of insertions: the last of its values. -/
theorem find?_foldl_insert_reverse (entries : List (κ × ν)) (map : OrderedMap κ ν) (key : κ) :
    (entries.foldl (fun map entry => map.insert entry.1 entry.2) map).find? key =
      (lookup? key entries.reverse).or (map.find? key) := by
  induction entries using List.reverseRecOn with
  | nil => rfl
  | append_singleton entries last ih =>
      rw [List.foldl_append, List.foldl_cons, List.foldl_nil, find?_insert, List.reverse_concat, lookup?]
      by_cases hkey : key = last.1
      · rw [if_pos hkey, if_pos hkey.symm]
        rfl
      · rw [if_neg hkey, if_neg (Ne.symm hkey), ih]

/-- `map.emplace(key, val)`: a key that is there keeps its value. -/
def emplace (map : OrderedMap κ ν) (key : κ) (val : ν) : OrderedMap κ ν :=
  if (map.find? key).isSome then map else map.insert key val

theorem find?_emplace (map : OrderedMap κ ν) (key other : κ) (val : ν) :
    (map.emplace key val).find? other = (map.find? other).or (if other = key then some val else none) := by
  rw [emplace]
  cases hfind : map.find? key with
  | none =>
      rw [Option.isSome_none, if_neg Bool.false_ne_true, find?_insert]
      by_cases hother : other = key
      · rw [if_pos hother, if_pos hother, hother, hfind, Option.none_or]
      · rw [if_neg hother, if_neg hother, Option.or_none]
  | some old =>
      rw [Option.isSome_some, if_pos rfl]
      by_cases hother : other = key
      · rw [hother, hfind, Option.some_or]
      · rw [if_neg hother, Option.or_none]

/-- Looking up a key after a run of them: the first of its values. -/
theorem find?_foldl_emplace (entries : List (κ × ν)) (map : OrderedMap κ ν) (key : κ) :
    (entries.foldl (fun map entry => map.emplace entry.1 entry.2) map).find? key =
      (map.find? key).or (lookup? key entries) := by
  induction entries generalizing map with
  | nil => exact Option.or_none.symm
  | cons head rest ih =>
      rw [List.foldl_cons, ih, find?_emplace, lookup?, Option.or_assoc]
      by_cases hkey : key = head.1
      · rw [if_pos hkey, if_pos hkey.symm, Option.some_or]
      · rw [if_neg hkey, if_neg (Ne.symm hkey), Option.none_or]

/-- Other values under the same keys. -/
def mapValues {μ : Type} (f : ν → μ) (map : OrderedMap κ ν) : OrderedMap κ μ :=
  ⟨map.entries.map fun entry => (entry.1, f entry.2), List.pairwise_map.mpr map.sorted⟩

theorem find?_mapValues {μ : Type} (f : ν → μ) (map : OrderedMap κ ν) (key : κ) :
    (map.mapValues f).find? key = (map.find? key).map f := by
  obtain ⟨entries, hsorted⟩ := map
  change lookup? key (entries.map fun entry => (entry.1, f entry.2)) = (lookup? key entries).map f
  clear hsorted
  induction entries with
  | nil => rfl
  | cons head rest ih =>
      rw [List.map_cons, lookup?, lookup?, ih]
      split_ifs <;> rfl

/-- Maps that find the same keys have the same keys. -/
theorem keys_eq {left right : OrderedMap κ ν}
    (hfind : ∀ key, (left.find? key).isSome = (right.find? key).isSome) :
    left.entries.map Prod.fst = right.entries.map Prod.fst := by
  have hunits : left.mapValues (fun _ => ()) = right.mapValues fun _ => () := by
    apply ext_find?
    intro key
    rw [find?_mapValues, find?_mapValues]
    have hkey := hfind key
    cases hleft : left.find? key <;> cases hright : right.find? key <;> simp_all
  have hkeys := congrArg (fun map => map.entries.map Prod.fst) hunits
  simpa only [mapValues, List.map_map, Function.comp_def] using hkeys

theorem isSome_lookup?_reverse (key : κ) (entries : List (κ × ν)) :
    (lookup? key entries.reverse).isSome = (lookup? key entries).isSome := by
  rw [Bool.eq_iff_iff, isSome_lookup?_iff, isSome_lookup?_iff, List.map_reverse, List.mem_reverse]

theorem mem_of_lookup? {key : κ} {val : ν} {entries : List (κ × ν)}
    (hval : lookup? key entries = some val) : (key, val) ∈ entries := by
  induction entries with
  | nil => cases hval
  | cons head rest ih =>
      rw [lookup?] at hval
      split_ifs at hval with hkey
      · rw [← hkey, ← Option.some.inj hval]
        exact List.mem_cons_self
      · exact List.mem_cons_of_mem _ (ih hval)

theorem entries_foldl_insert (entries : List (κ × ν)) (map : OrderedMap κ ν) :
    (entries.foldl (fun map entry => map.insert entry.1 entry.2) map).entries =
      entries.foldl (fun entries entry => insertEntry entry.1 entry.2 entries) map.entries := by
  induction entries generalizing map with
  | nil => rfl
  | cons entry entries ih => exact ih (map.insert entry.1 entry.2)

end OrderedMap

end CppProjects
