import Mathlib.Tactic

/-!
# Directories

Files by name, each the sequence of what was written to it.  Renaming a file destroys
what stood under its new name; nothing else destroys anything.
-/

namespace CppProjects

variable {ν ρ : Type} [DecidableEq ν]

/-- What stands under each name. -/
abbrev Directory (ν ρ : Type) : Type := ν → Option (List ρ)

namespace Directory

/-- Opening a file for appending. -/
def create (dir : Directory ν ρ) (name : ν) : Directory ν ρ :=
  Function.update dir name (some ((dir name).getD []))

def append (dir : Directory ν ρ) (name : ν) (piece : ρ) : Directory ν ρ :=
  Function.update dir name ((dir name).map (· ++ [piece]))

/-- `rename`, which replaces an existing target and needs an existing source. -/
def rename (dir : Directory ν ρ) (source target : ν) : Option (Directory ν ρ) :=
  (dir source).map fun pieces =>
    Function.update (Function.update dir source none) target (some pieces)

/-- The file holds the piece. -/
def Holds (dir : Directory ν ρ) (name : ν) (piece : ρ) : Prop :=
  ∃ pieces, dir name = some pieces ∧ piece ∈ pieces

variable {dir dir' : Directory ν ρ} {name other source target : ν} {piece new : ρ}

theorem holds_create : (dir.create name).Holds other piece ↔ dir.Holds other piece := by
  by_cases hsame : other = name
  · subst hsame
    rw [Holds, Holds, create, Function.update_self]
    cases dir other with
    | none => simp
    | some pieces => simp
  · rw [Holds, Holds, create, Function.update_of_ne hsame]

theorem holds_append : (dir.append name new).Holds other piece ↔
    dir.Holds other piece ∨ other = name ∧ (dir name).isSome ∧ piece = new := by
  by_cases hsame : other = name
  · subst hsame
    rw [Holds, Holds, append, Function.update_self]
    cases dir other with
    | none => simp
    | some pieces => simp
  · rw [Holds, Holds, append, Function.update_of_ne hsame]
    simp [hsame]

/-- Behind a renaming the target has what the source had, and the source nothing. -/
theorem holds_rename (hne : target ≠ source) (hrename : dir.rename source target = some dir') :
    dir'.Holds other piece ↔
      if other = target then dir.Holds source piece else other ≠ source ∧ dir.Holds other piece := by
  rw [rename, Option.map_eq_some_iff] at hrename
  obtain ⟨pieces, hpieces, rfl⟩ := hrename
  split_ifs with htarget
  · subst htarget
    rw [Holds, Holds, Function.update_self, hpieces]
  · rw [Holds, Holds, Function.update_of_ne htarget]
    by_cases hsource : other = source
    · subst hsource
      rw [Function.update_self]
      simp
    · rw [Function.update_of_ne hsource]
      simp [hsource]

theorem source_of_rename (hne : target ≠ source) (hrename : dir.rename source target = some dir') :
    dir' source = none := by
  rw [rename, Option.map_eq_some_iff] at hrename
  obtain ⟨pieces, -, rfl⟩ := hrename
  rw [Function.update_of_ne hne.symm, Function.update_self]

end Directory

end CppProjects
