import CppProjects.Core.SerialUpdates

/-!
# Updates by compare-and-exchange

A thread loads the object, and stores what its operation makes of the value if the object
is still the same; else it tries again.
-/

namespace CppProjects

namespace CasLoop

/-- `compare_exchange_weak`: whether the object was exchanged, the object, and what was
expected. -/
def compareExchangeWeak {α : Type} [DecidableEq α] (object expected desired : α) (spurious : Bool) :
    Bool × α × α :=
  if object = expected ∧ spurious = false then (true, desired, expected) else (false, object, object)

/-- Where a thread is, with the operations it has still to do. -/
inductive Pc (ω α : Type)
  /-- About to load the object. -/
  | loading (ops : List ω)
  /-- About to exchange what is expected for what the operation makes of it. -/
  | trying (op : ω) (rest : List ω) (expected : α)
deriving DecidableEq, Repr

def Pc.left {ω α : Type} : Pc ω α → List ω
  | .loading ops => ops
  | .trying op rest _ => op :: rest

/-- The object and the threads.  `did` is a history, and `failed` counts the exchanges that
failed because the object was not as expected. -/
structure State (ω α : Type) where
  object : α
  threads : List (Pc ω α)
  did : List (ℕ × ω)
  failed : ℕ
deriving DecidableEq, Repr

variable {ω α : Type} [DecidableEq α]

/-- Thread `t` takes its next step.  After a failure it loads the object once more if
`reload` is set. -/
def step (reload : Bool) (apply : ω → α → α) (s : State ω α) (label : ℕ × Bool) :
    Option (State ω α) :=
  match s.threads[label.1]? with
  | some (.loading (op :: rest)) =>
      some { s with threads := s.threads.set label.1 (.trying op rest s.object) }
  | some (.trying op rest expected) =>
      let (exchanged, object, expected') :=
        compareExchangeWeak s.object expected (apply op expected) label.2
      if exchanged then
        some { s with
          object := object
          threads := s.threads.set label.1 (.loading rest)
          did := s.did ++ [(label.1, op)] }
      else
        some { s with
          threads := s.threads.set label.1
            (if reload then .loading (op :: rest) else .trying op rest expected')
          failed := if s.object = expected then s.failed else s.failed + 1 }
  | some (.loading []) | none => none

/-- Threads that have each a program of operations. -/
def system (reload : Bool) (apply : ω → α → α) (start : α) (programs : List (List ω)) :
    TransitionSystem (State ω α) (ℕ × Bool) where
  initial s := s = ⟨start, programs.map .loading, [], 0⟩
  step := step reload apply

/-- What the thread expects is not there any more. -/
def stale (object : α) : Pc ω α → Bool
  | .loading _ => false
  | .trying _ _ expected => object ≠ expected

/-- The operations were done one after another, and each of them has made every other
thread fail once at most. -/
structure Inv (apply : ω → α → α) (start : α) (programs : List (List ω)) (s : State ω α) : Prop where
  serial : Serial apply start programs s.object s.did (s.threads.map Pc.left)
  failures : s.failed + s.threads.countP (stale s.object) ≤ s.did.length * (programs.length - 1)

variable {reload : Bool} {apply : ω → α → α} {start : α} {programs : List (List ω)}
  {s s' : State ω α} {label : ℕ × Bool} {t : ℕ}

/-- What a step does. -/
inductive Effect (apply : ω → α → α) (s : State ω α) (t : ℕ) : State ω α → Prop
  | load (op : ω) (rest : List ω) (hget : s.threads[t]? = some (.loading (op :: rest))) :
      Effect apply s t { s with threads := s.threads.set t (.trying op rest s.object) }
  | exchange (op : ω) (rest : List ω) (hget : s.threads[t]? = some (.trying op rest s.object)) :
      Effect apply s t { s with
        object := apply op s.object
        threads := s.threads.set t (.loading rest)
        did := s.did ++ [(t, op)] }
  | fail (op : ω) (rest : List ω) (expected : α) (pc : Pc ω α)
      (hget : s.threads[t]? = some (.trying op rest expected)) (hleft : pc.left = op :: rest)
      (hfresh : stale s.object pc = false) :
      Effect apply s t { s with
        threads := s.threads.set t pc
        failed := if s.object = expected then s.failed else s.failed + 1 }

theorem effect_step (hstep : step reload apply s label = some s') : Effect apply s label.1 s' := by
  rw [step] at hstep
  split at hstep
  next op rest hget => exact Option.some.inj hstep ▸ .load op rest hget
  next op rest expected hget =>
    rw [compareExchangeWeak] at hstep
    by_cases hequal : s.object = expected ∧ label.2 = false
    · rw [if_pos hequal] at hstep
      obtain ⟨rfl, -⟩ := hequal
      exact Option.some.inj hstep ▸ .exchange op rest hget
    · rw [if_neg hequal] at hstep
      refine Option.some.inj hstep ▸ .fail op rest expected _ hget ?_ ?_
      · split_ifs <;> rfl
      · split_ifs <;> simp [stale]
  all_goals cases hstep

namespace Inv

theorem initial (apply : ω → α → α) (start : α) (programs : List (List ω)) :
    Inv apply start programs ⟨start, programs.map .loading, [], 0⟩ where
  serial := by
    have hleft : (programs.map Pc.loading).map (Pc.left (α := α)) = programs := by
      rw [List.map_map]
      exact List.map_id programs
    rw [hleft]
    exact .initial apply start programs
  failures := by
    have hnone : (programs.map Pc.loading).countP (stale start) = 0 := by
      rw [List.countP_eq_zero]
      simp only [List.mem_map]
      rintro _ ⟨ops, -, rfl⟩
      exact Bool.false_ne_true
    simp [hnone]

theorem step (hinv : Inv apply start programs s) (heffect : Effect apply s t s') :
    Inv apply start programs s' := by
  cases heffect with
  | load op rest hget =>
      have hfresh : stale s.object (.trying op rest s.object) = false := by simp [stale]
      have hcount := countP_set_of_getElem? (stale s.object) hget (.trying op rest s.object)
      rw [hfresh, stale] at hcount
      refine ⟨?_, ?_⟩
      · dsimp only
        rw [map_set_of_eq Pc.left hget (.trying op rest s.object) rfl]
        exact hinv.serial
      · have hfailures := hinv.failures
        simp only [Bool.false_eq_true, if_false, Nat.add_zero] at hcount
        dsimp only
        omega
  | exchange op rest hget =>
      refine ⟨?_, ?_⟩
      · dsimp only
        rw [List.map_set]
        exact hinv.serial.step (by rw [List.getElem?_map, hget]; rfl)
      · -- everybody else may be stale now
        have hothers : (s.threads.set t (.loading rest)).countP (stale (apply op s.object)) ≤
            programs.length - 1 := by
          have hlength : s.threads.length = programs.length := by
            rw [← hinv.serial.threads, List.length_map]
          have hmem : Pc.loading rest ∈ s.threads.set t (.loading rest) :=
            List.mem_set (List.getElem?_eq_some_iff.mp hget).1 _
          have hlt : (s.threads.set t (.loading rest)).countP (stale (apply op s.object)) <
              (s.threads.set t (.loading rest)).length :=
            List.countP_lt_length_iff.mpr ⟨_, hmem, rfl⟩
          rw [List.length_set, hlength] at hlt
          exact Nat.le_sub_one_of_lt hlt
        have hfailures := hinv.failures
        dsimp only
        rw [List.length_append, List.length_singleton, Nat.add_mul, one_mul]
        omega
  | fail op rest expected pc hget hleft hfresh =>
      have hcount := countP_set_of_getElem? (stale s.object) hget pc
      refine ⟨?_, ?_⟩
      · dsimp only
        rw [map_set_of_eq Pc.left hget pc hleft]
        exact hinv.serial
      · have hfailures := hinv.failures
        dsimp only
        rw [hfresh, stale] at hcount
        by_cases hequal : s.object = expected
        · rw [if_pos hequal]
          simp only [hequal, ne_eq, not_true_eq_false, decide_false, Bool.false_eq_true, if_false,
            Nat.add_zero] at hcount hfailures ⊢
          omega
        · rw [if_neg hequal]
          simp only [ne_eq, hequal, not_false_eq_true, decide_true, if_true, Bool.false_eq_true,
            if_false, Nat.add_zero] at hcount
          omega

end Inv

theorem inv_of_reachable (hreach : (system reload apply start programs).Reachable s) :
    Inv apply start programs s := by
  refine hreach.invariant ?_ fun s label s' hinv hstep => hinv.step (effect_step hstep)
  rintro _ rfl
  exact .initial apply start programs

/-! ## Getting done -/

/-- Every thread has done its program. -/
def Finished (s : State ω α) : Prop := ∀ pc ∈ s.threads, pc = .loading []

def State.work (s : State ω α) : ℕ := (s.threads.map fun pc => pc.left.length).sum

omit [DecidableEq α] in
theorem work_set {pc : Pc ω α} (pc' : Pc ω α) (hget : s.threads[t]? = some pc)
    (hleft : pc'.left = pc.left) (hthreads : s'.threads = s.threads.set t pc') :
    s'.work = s.work := by
  rw [State.work, State.work, hthreads, map_set_of_eq _ hget pc' (congrArg List.length hleft)]

variable (reload apply start programs)

/-- Some steps leave less to do. -/
def Advances (s : State ω α) : Prop :=
  ∃ labels s', (system reload apply start programs).execute s labels = some s' ∧ s'.work < s.work

variable {reload apply start programs}

theorem Advances.of_step (hstep : step reload apply s label = some s') (hwork : s'.work = s.work)
    (hadvances : Advances reload apply start programs s') :
    Advances reload apply start programs s := by
  obtain ⟨labels, s'', hlabels, hless⟩ := hadvances
  refine ⟨label :: labels, s'', ?_, hwork ▸ hless⟩
  have hfirst : (system reload apply start programs).step s label = some s' := hstep
  rw [TransitionSystem.execute_cons, hfirst, Option.bind_some, hlabels]

/-- A thread that expects what is there does its operation. -/
theorem advances_of_fresh {op : ω} {rest : List ω}
    (hget : s.threads[t]? = some (.trying op rest s.object)) :
    Advances reload apply start programs s := by
  refine ⟨[(t, false)], { s with
    object := apply op s.object
    threads := s.threads.set t (.loading rest)
    did := s.did ++ [(t, op)] }, ?_, ?_⟩
  · rw [TransitionSystem.execute_singleton]
    simp [system, step, hget, compareExchangeWeak]
  · have hsum := sum_map_set_of_getElem? (fun pc => pc.left.length) hget (.loading rest)
    simp only [Pc.left, List.length_cons] at hsum
    simp only [State.work, Pc.left]
    omega

theorem advances_of_loading {op : ω} {rest : List ω}
    (hget : s.threads[t]? = some (.loading (op :: rest))) :
    Advances reload apply start programs s := by
  have hlt := (List.getElem?_eq_some_iff.mp hget).1
  have hstep : step reload apply s (t, false) =
      some { s with threads := s.threads.set t (.trying op rest s.object) } := by
    simp [step, hget]
  exact .of_step hstep (work_set (.trying op rest s.object) hget rfl rfl)
    (advances_of_fresh (List.getElem?_set_self hlt))

/-- A thread that expects something else fails first. -/
theorem advances_of_stale {op : ω} {rest : List ω} {expected : α}
    (hget : s.threads[t]? = some (.trying op rest expected)) (hne : s.object ≠ expected) :
    Advances reload apply start programs s := by
  have hlt := (List.getElem?_eq_some_iff.mp hget).1
  cases reload with
  | true =>
      have hstep : step true apply s (t, false) = some { s with
          threads := s.threads.set t (.loading (op :: rest)), failed := s.failed + 1 } := by
        simp [step, hget, compareExchangeWeak, hne]
      exact .of_step hstep (work_set (.loading (op :: rest)) hget rfl rfl)
        (advances_of_loading (List.getElem?_set_self hlt))
  | false =>
      have hstep : step false apply s (t, false) = some { s with
          threads := s.threads.set t (.trying op rest s.object), failed := s.failed + 1 } := by
        simp [step, hget, compareExchangeWeak, hne]
      exact .of_step hstep (work_set (.trying op rest s.object) hget rfl rfl)
        (advances_of_fresh (List.getElem?_set_self hlt))

theorem advances_of_not_finished (hleft : ¬ Finished s) : Advances reload apply start programs s := by
  simp only [Finished, not_forall] at hleft
  obtain ⟨pc, hmem, hne⟩ := hleft
  obtain ⟨t, hget⟩ := List.getElem?_of_mem hmem
  cases pc with
  | loading ops =>
      cases ops with
      | nil => exact absurd rfl hne
      | cons op rest => exact advances_of_loading hget
  | trying op rest expected =>
      by_cases hequal : s.object = expected
      · subst hequal
        exact advances_of_fresh hget
      · exact advances_of_stale hget hequal

/-- From every reachable state all programs can be done. -/
theorem leads_finished : (system reload apply start programs).Leads
    (system reload apply start programs).Reachable Finished := by
  refine .of_measure State.work fun s hreach => ?_
  by_cases hfinished : Finished s
  · exact .inl hfinished
  · obtain ⟨labels, s', hlabels, hless⟩ := advances_of_not_finished hfinished
    exact .inr ⟨labels, s', hlabels, hreach.execute hlabels, hless⟩

end CasLoop

end CppProjects
