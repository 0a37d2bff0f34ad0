import Mathlib.Tactic
import Mathlib.Data.List.Infix

/-!
# Delimited texts

A field that ends at the first of its delimiters can be told from what follows it.
An encoding is self-delimiting if no text starts with the codes of two values.
-/

namespace CppProjects

namespace Delimiters

variable {α β : Type}

/-- A field up to the first character of `stops`. -/
theorem eq_of_stop {stops : β → Prop} {field field' rest rest' : List β} {c c' : β}
    (hfield : ∀ x ∈ field, ¬ stops x) (hfield' : ∀ x ∈ field', ¬ stops x) (hc : stops c)
    (hc' : stops c') (heq : field ++ c :: rest = field' ++ c' :: rest') :
    field = field' ∧ c = c' ∧ rest = rest' := by
  induction field generalizing field' with
  | nil =>
      cases field' with
      | nil => exact ⟨rfl, List.cons.inj heq⟩
      | cons x field' =>
          obtain ⟨rfl, -⟩ := List.cons.inj heq
          exact absurd hc (hfield' c List.mem_cons_self)
  | cons x field ih =>
      cases field' with
      | nil =>
          obtain ⟨rfl, -⟩ := List.cons.inj heq
          exact absurd hc' (hfield x List.mem_cons_self)
      | cons y field' =>
          obtain ⟨rfl, htail⟩ := List.cons.inj heq
          obtain ⟨rfl, hrest⟩ := ih (fun z hz => hfield z (List.mem_cons_of_mem _ hz))
            (fun z hz => hfield' z (List.mem_cons_of_mem _ hz)) htail
          exact ⟨rfl, hrest⟩

end Delimiters

end CppProjects
