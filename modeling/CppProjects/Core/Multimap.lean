import Mathlib.Tactic
import Mathlib.Data.List.TakeWhile

/-!
# Ordered multimaps

`std::multimap` as the sequence its iterators visit, in the order of the keys.  An
iterator is a position of that sequence, and `end()` is its length.  A new entry goes
behind the entries of its own key.
-/

namespace CppProjects

structure Multimap (κ ν : Type) [LinearOrder κ] where
  entries : List (κ × ν)
  sorted : entries.Pairwise fun left right => left.1 ≤ right.1

namespace Multimap

variable {κ ν : Type} [LinearOrder κ]

def empty : Multimap κ ν := ⟨[], List.Pairwise.nil⟩

/-- The entries that a new entry under `key` goes behind. -/
def upTo (key : κ) (entries : List (κ × ν)) : List (κ × ν) :=
  entries.takeWhile fun entry => entry.1 ≤ key

def beyond (key : κ) (entries : List (κ × ν)) : List (κ × ν) :=
  entries.dropWhile fun entry => entry.1 ≤ key

theorem upTo_append_beyond (key : κ) (entries : List (κ × ν)) :
    upTo key entries ++ beyond key entries = entries :=
  List.takeWhile_append_dropWhile

theorem le_of_mem_upTo {key : κ} {entries : List (κ × ν)} {entry : κ × ν}
    (hmem : entry ∈ upTo key entries) : entry.1 ≤ key := by
  have hle := List.mem_takeWhile_imp (p := fun entry : κ × ν => entry.1 ≤ key) hmem
  simpa using hle

theorem lt_of_mem_beyond {key : κ} {entries : List (κ × ν)} {entry : κ × ν}
    (hsorted : entries.Pairwise fun left right => left.1 ≤ right.1)
    (hmem : entry ∈ beyond key entries) : key < entry.1 := by
  induction entries with
  | nil => cases hmem
  | cons head rest ih =>
      obtain ⟨hhead, hrest⟩ := List.pairwise_cons.mp hsorted
      rw [beyond, List.dropWhile_cons] at hmem
      split_ifs at hmem with hle
      · exact ih hrest hmem
      · have hlt : key < head.1 := lt_of_not_ge (by simpa using hle)
        rcases List.mem_cons.mp hmem with rfl | hmem
        · exact hlt
        · exact hlt.trans_le (hhead entry hmem)

theorem insert_sorted (key : κ) (val : ν) {entries : List (κ × ν)}
    (hsorted : entries.Pairwise fun left right => left.1 ≤ right.1) :
    (upTo key entries ++ (key, val) :: beyond key entries).Pairwise
      fun left right => left.1 ≤ right.1 := by
  have hparts := hsorted
  rw [← upTo_append_beyond key entries, List.pairwise_append] at hparts
  obtain ⟨hfirst, hsecond, -⟩ := hparts
  have hbeyond : ∀ entry ∈ beyond key entries, key ≤ entry.1 :=
    fun entry hmem => (lt_of_mem_beyond hsorted hmem).le
  refine List.pairwise_append.mpr ⟨hfirst, List.pairwise_cons.mpr ⟨hbeyond, hsecond⟩, ?_⟩
  intro left hleft right hright
  rcases List.mem_cons.mp hright with rfl | hright
  · exact le_of_mem_upTo hleft
  · exact (le_of_mem_upTo hleft).trans (hbeyond right hright)

/-- `map.insert({key, val})`, with the iterator it returns. -/
def insert (map : Multimap κ ν) (key : κ) (val : ν) : Multimap κ ν × ℕ :=
  (⟨upTo key map.entries ++ (key, val) :: beyond key map.entries, insert_sorted key val map.sorted⟩,
    (upTo key map.entries).length)

/-- `map.erase(it)`; the iterator of the next entry is `it` again. -/
def erase (map : Multimap κ ν) (it : ℕ) : Multimap κ ν :=
  ⟨map.entries.eraseIdx it, map.sorted.sublist (List.eraseIdx_sublist _ _)⟩

theorem entries_insert_perm (map : Multimap κ ν) (key : κ) (val : ν) :
    (map.insert key val).1.entries.Perm ((key, val) :: map.entries) := by
  have hperm : (upTo key map.entries ++ (key, val) :: beyond key map.entries).Perm
      ((key, val) :: (upTo key map.entries ++ beyond key map.entries)) := List.perm_middle
  rw [upTo_append_beyond] at hperm
  exact hperm

theorem mem_insert {map : Multimap κ ν} {key : κ} {val : ν} {entry : κ × ν} :
    entry ∈ (map.insert key val).1.entries ↔ entry = (key, val) ∨ entry ∈ map.entries := by
  rw [(entries_insert_perm map key val).mem_iff, List.mem_cons]

/-- An entry before the first one is the new first one. -/
theorem insert_snd_of_lt {map : Multimap κ ν} {key : κ} {val : ν}
    (hlt : ∀ entry, map.entries.head? = some entry → key < entry.1) :
    (map.insert key val).2 = 0 := by
  change (upTo key map.entries).length = 0
  cases hentries : map.entries with
  | nil => rfl
  | cons head rest =>
      have hhead := hlt head (by rw [hentries]; rfl)
      rw [upTo, List.takeWhile_cons_of_neg (by simpa using hhead)]
      rfl

/-- Any other entry goes behind the first one. -/
theorem insert_snd_pos {map : Multimap κ ν} {key : κ} {val : ν} {entry : κ × ν}
    (hhead : map.entries.head? = some entry) (hle : entry.1 ≤ key) :
    0 < (map.insert key val).2 := by
  change 0 < (upTo key map.entries).length
  cases hentries : map.entries with
  | nil => rw [hentries] at hhead; cases hhead
  | cons head rest =>
      rw [hentries] at hhead
      obtain rfl := Option.some.inj hhead
      rw [upTo, List.takeWhile_cons_of_pos (by simpa using hle)]
      exact Nat.succ_pos _

end Multimap

end CppProjects
