import CppProjects.Core.ListUpdate
import CppProjects.Core.TransitionSystem

/-!
# Updates of a shared object

Threads that update one object, each by its own list of operations.  Nothing is lost if
the object is what the operations give one after another, in an order that keeps the order
of each thread.
-/

namespace CppProjects

/-- The operations done so far, each with the thread that did it, give the object, and what
each thread has done and has left is its program. -/
structure Serial {ω α : Type} (apply : ω → α → α) (start : α) (programs : List (List ω))
    (object : α) (did : List (ℕ × ω)) (left : List (List ω)) : Prop where
  object : object = did.foldl (fun value entry => apply entry.2 value) start
  threads : left.length = programs.length
  split : ∀ (i : ℕ) (rest : List ω), left[i]? = some rest →
    programs[i]? = some ((did.filter (·.1 = i)).map Prod.snd ++ rest)
  count : did.length + (left.map List.length).sum = (programs.map List.length).sum

namespace Serial

variable {ω α : Type} {apply : ω → α → α} {start object : α} {programs left : List (List ω)}
  {did : List (ℕ × ω)} {i : ℕ} {op : ω} {rest : List ω}

theorem initial (apply : ω → α → α) (start : α) (programs : List (List ω)) :
    Serial apply start programs start [] programs :=
  ⟨rfl, rfl, fun _ _ hget => by simpa using hget, Nat.zero_add _⟩

/-- One thread does its next operation. -/
theorem step (hserial : Serial apply start programs object did left)
    (hget : left[i]? = some (op :: rest)) :
    Serial apply start programs (apply op object) (did ++ [(i, op)]) (left.set i rest) where
  object := by
    rw [List.foldl_append, List.foldl_cons, List.foldl_nil, ← hserial.object]
  threads := by rw [List.length_set, hserial.threads]
  split j other hother := by
    rw [List.filter_append, List.map_append, List.append_assoc]
    rcases getElem?_set_cases hother with ⟨rfl, rfl⟩ | ⟨hne, hold⟩
    · simpa using hserial.split j _ hget
    · have hskip : [(i, op)].filter (fun entry => entry.1 = j) = [] := by
        simpa using Ne.symm hne
      rw [hskip, List.map_nil, List.nil_append]
      exact hserial.split j other hold
  count := by
    have hsum := sum_map_set_of_getElem? List.length hget rest
    have hcount := hserial.count
    rw [List.length_cons] at hsum
    rw [List.length_append, List.length_singleton]
    omega

/-- All programs are done. -/
theorem length_of_finished (hserial : Serial apply start programs object did left)
    (hfinished : ∀ rest ∈ left, rest = []) : did.length = (programs.map List.length).sum := by
  have hnone : (left.map List.length).sum = 0 := by
    rw [List.sum_eq_zero_iff]
    simp only [List.mem_map]
    rintro _ ⟨rest, hmem, rfl⟩
    rw [hfinished rest hmem, List.length_nil]
  have hcount := hserial.count
  omega

/-- A counter has counted the operations. -/
theorem eq_add_length {start object : ℤ} {apply : ω → ℤ → ℤ} (happly : ∀ op value, apply op value = value + 1)
    (hserial : Serial apply start programs object did left) : object = start + did.length := by
  rw [hserial.object]
  clear hserial
  induction did generalizing start with
  | nil => simp
  | cons entry did ih =>
      rw [List.foldl_cons, happly, ih, List.length_cons]
      push_cast
      ring

end Serial

end CppProjects
