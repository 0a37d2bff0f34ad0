import CppProjects.Core.ListUpdate

/-!
# The last entry of a kind

Entries of a list whose meaning may depend on the entries in front of them, and
the last one of a kind with nothing of another kind behind it.
-/

namespace CppProjects

variable {α : Type*} {P P' Q Q' : List α → α → Prop} {entries : List α} {entry other last : α}

/-- The entry occurs in the list, and satisfies `P` behind those in front of it. -/
def Occurs (P : List α → α → Prop) (entries : List α) (entry : α) : Prop :=
  ∃ before after, entries = before ++ entry :: after ∧ P before entry

/-- Such an entry, with none that satisfies `Q` behind it. -/
def LastOf (P Q : List α → α → Prop) (entries : List α) (entry : α) : Prop :=
  ∃ before after, entries = before ++ entry :: after ∧ P before entry ∧
    ∀ middle later rest, after = middle ++ later :: rest → ¬ Q (before ++ entry :: middle) later

theorem not_occurs_nil : ¬ Occurs P [] entry := by
  rintro ⟨before, after, heq, -⟩
  exact absurd heq.symm (by simp)

theorem occurs_concat : Occurs P (entries ++ [last]) entry ↔
    (last = entry ∧ P entries last) ∨ Occurs P entries entry := by
  constructor
  · rintro ⟨before, after, heq, hentry⟩
    rcases concat_eq_append_cons heq with ⟨rfl, rfl⟩ | ⟨rest, rfl, rfl⟩
    · obtain rfl := (List.append_singleton_inj.mp heq).1
      exact .inl ⟨rfl, hentry⟩
    · exact .inr ⟨before, rest, rfl, hentry⟩
  · rintro (⟨rfl, hlast⟩ | ⟨before, rest, rfl, hentry⟩)
    · exact ⟨entries, [], rfl, hlast⟩
    · exact ⟨before, rest ++ [last], by simp, hentry⟩

theorem LastOf.occurs (hlast : LastOf P Q entries entry) : Occurs P entries entry := by
  obtain ⟨before, after, heq, hentry, -⟩ := hlast
  exact ⟨before, after, heq, hentry⟩

theorem not_lastOf_nil : ¬ LastOf P Q [] entry := fun hlast => not_occurs_nil hlast.occurs

theorem lastOf_concat : LastOf P Q (entries ++ [last]) entry ↔
    (last = entry ∧ P entries last) ∨ (LastOf P Q entries entry ∧ ¬ Q entries last) := by
  constructor
  · rintro ⟨before, after, heq, hentry, hnone⟩
    rcases concat_eq_append_cons heq with ⟨rfl, rfl⟩ | ⟨rest, rfl, rfl⟩
    · obtain rfl := (List.append_singleton_inj.mp heq).1
      exact .inl ⟨rfl, hentry⟩
    · refine .inr ⟨⟨before, rest, rfl, hentry, ?_⟩, hnone rest last [] rfl⟩
      intro middle later behind hrest
      exact hnone middle later (behind ++ [last]) (by simp [hrest])
  · rintro (⟨rfl, hlast⟩ | ⟨⟨before, rest, rfl, hentry, hnone⟩, hlast⟩)
    · exact ⟨entries, [], rfl, hlast, fun middle later behind heq => absurd heq.symm (by simp)⟩
    · refine ⟨before, rest ++ [last], by simp, hentry, ?_⟩
      intro middle later behind heq
      rcases concat_eq_append_cons heq with ⟨rfl, rfl⟩ | ⟨behind, rfl, rfl⟩
      · obtain rfl := (List.append_singleton_inj.mp heq).1
        exact hlast
      · exact hnone middle later behind rfl

theorem LastOf.weaken (hlast : LastOf P Q entries entry)
    (hentry : ∀ before, P before entry → P' before entry)
    (hlater : ∀ before later, Q' before later → Q before later) : LastOf P' Q' entries entry := by
  obtain ⟨before, after, heq, hfirst, hnone⟩ := hlast
  exact ⟨before, after, heq, hentry before hfirst,
    fun middle later rest hafter hq => hnone middle later rest hafter (hlater _ _ hq)⟩

/-- There is one last entry at most. -/
theorem LastOf.unique (himplies : ∀ before entry, P before entry → Q before entry)
    (hentry : LastOf P Q entries entry) (hother : LastOf P Q entries other) : entry = other := by
  induction entries using List.reverseRecOn with
  | nil => exact absurd hentry not_lastOf_nil
  | append_singleton entries last ih =>
      rcases lastOf_concat.mp hentry with ⟨rfl, hlast⟩ | ⟨hold, hkept⟩
      · rcases lastOf_concat.mp hother with ⟨rfl, -⟩ | ⟨-, hnot⟩
        · rfl
        · exact absurd (himplies _ _ hlast) hnot
      · rcases lastOf_concat.mp hother with ⟨-, hlast⟩ | ⟨hold', -⟩
        · exact absurd (himplies _ _ hlast) hkept
        · exact ih hold hold'

/-- Where there are entries of a kind, one of them is the last. -/
theorem Occurs.exists_lastOf (hoccurs : Occurs P entries entry) : ∃ last, LastOf P P entries last := by
  induction entries using List.reverseRecOn with
  | nil => exact absurd hoccurs not_occurs_nil
  | append_singleton entries last ih =>
      by_cases hlast : P entries last
      · exact ⟨last, lastOf_concat.mpr (.inl ⟨rfl, hlast⟩)⟩
      · rcases occurs_concat.mp hoccurs with ⟨-, hnew⟩ | hold
        · exact absurd hnew hlast
        · obtain ⟨earlier, hearlier⟩ := ih hold
          exact ⟨earlier, lastOf_concat.mpr (.inr ⟨hearlier, hlast⟩)⟩

end CppProjects
