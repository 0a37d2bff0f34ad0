import CppProjects.Core.SerialUpdates

/-!
# Updates under a lock

The lock is a flag that the threads try to set until they find it clear.  The object is
loaded and stored in separate steps.
-/

namespace CppProjects

namespace Guarded

/-- Where a thread is, with the operations it has still to do. -/
inductive Pc (ω α : Type)
  /-- About to try to take the lock. -/
  | outside (ops : List ω)
  /-- About to load the object. -/
  | entered (op : ω) (rest : List ω)
  /-- About to store what the operation makes of the value. -/
  | loaded (op : ω) (rest : List ω) (value : α)
  /-- About to release the lock. -/
  | leaving (rest : List ω)
deriving DecidableEq, Repr

def Pc.left {ω α : Type} : Pc ω α → List ω
  | .outside ops => ops
  | .entered op rest | .loaded op rest _ => op :: rest
  | .leaving rest => rest

def Pc.inside {ω α : Type} : Pc ω α → Bool
  | .outside _ => false
  | .entered _ _ | .loaded _ _ _ | .leaving _ => true

/-- The lock, the object and the threads; `did` is a history. -/
structure State (ω α : Type) where
  locked : Bool
  object : α
  threads : List (Pc ω α)
  did : List (ℕ × ω)
deriving DecidableEq, Repr

variable {ω α : Type}

/-- Thread `t` takes its next step.  `take` says of a flag whether it is got and what it is
then; it may fail for no reason. -/
def step (take : Bool → Bool → Bool × Bool) (apply : ω → α → α) (s : State ω α) (label : ℕ × Bool) :
    Option (State ω α) :=
  match s.threads[label.1]? with
  | some (.outside (op :: rest)) =>
      let (got, locked) := take s.locked label.2
      some { s with
        locked := locked
        threads := s.threads.set label.1 (if got then .entered op rest else .outside (op :: rest)) }
  | some (.entered op rest) => some { s with threads := s.threads.set label.1 (.loaded op rest s.object) }
  | some (.loaded op rest value) =>
      some { s with
        object := apply op value
        threads := s.threads.set label.1 (.leaving rest)
        did := s.did ++ [(label.1, op)] }
  | some (.leaving rest) =>
      some { s with locked := false, threads := s.threads.set label.1 (.outside rest) }
  | some (.outside []) | none => none

/-- Threads that have each a program of operations. -/
def system (take : Bool → Bool → Bool × Bool) (apply : ω → α → α) (start : α)
    (programs : List (List ω)) : TransitionSystem (State ω α) (ℕ × Bool) where
  initial s := s = ⟨false, start, programs.map .outside, []⟩
  step := step take apply

/-- A lock that is free is got, or not for no reason; one that is taken is not. -/
def Locks (take : Bool → Bool → Bool × Bool) : Prop :=
  take false false = (true, true) ∧ (take false true = (true, true) ∨ take false true = (false, false)) ∧
    ∀ spurious, take true spurious = (false, true)

/-- Who is inside holds the lock and nobody else is, what it has loaded is the object, and
the operations were done one after another. -/
structure Inv (apply : ω → α → α) (start : α) (programs : List (List ω)) (s : State ω α) : Prop where
  exclusive : s.threads.countP Pc.inside = if s.locked then 1 else 0
  loaded : ∀ op rest value, .loaded op rest value ∈ s.threads → value = s.object
  serial : Serial apply start programs s.object s.did (s.threads.map Pc.left)

variable {take : Bool → Bool → Bool × Bool} {apply : ω → α → α} {start : α}
  {programs : List (List ω)} {s s' : State ω α} {label : ℕ × Bool} {t : ℕ} {pc : Pc ω α}

/-- What a step does. -/
inductive Effect (apply : ω → α → α) (s : State ω α) (t : ℕ) : State ω α → Prop
  | again : Effect apply s t s
  | enter (op : ω) (rest : List ω) (hget : s.threads[t]? = some (.outside (op :: rest)))
      (hfree : s.locked = false) :
      Effect apply s t { s with locked := true, threads := s.threads.set t (.entered op rest) }
  | load (op : ω) (rest : List ω) (hget : s.threads[t]? = some (.entered op rest)) :
      Effect apply s t { s with threads := s.threads.set t (.loaded op rest s.object) }
  | store (op : ω) (rest : List ω) (value : α) (hget : s.threads[t]? = some (.loaded op rest value)) :
      Effect apply s t { s with
        object := apply op value
        threads := s.threads.set t (.leaving rest)
        did := s.did ++ [(t, op)] }
  | leave (rest : List ω) (hget : s.threads[t]? = some (.leaving rest)) :
      Effect apply s t { s with locked := false, threads := s.threads.set t (.outside rest) }

theorem Locks.cases (htake : Locks take) (flag spurious : Bool) :
    (flag = false ∧ take flag spurious = (true, true)) ∨ take flag spurious = (false, flag) := by
  obtain ⟨hfree, hspurious, htaken⟩ := htake
  cases flag
  · cases spurious
    · exact .inl ⟨rfl, hfree⟩
    · exact hspurious.imp_left fun h => ⟨rfl, h⟩
  · exact .inr (htaken spurious)

theorem effect_step (htake : Locks take) (hstep : step take apply s label = some s') :
    Effect apply s label.1 s' := by
  rw [step] at hstep
  split at hstep
  next op rest hget =>
    rcases htake.cases s.locked label.2 with ⟨hfree, hgot⟩ | hfailed
    · rw [hgot] at hstep
      exact Option.some.inj hstep ▸ .enter op rest hget hfree
    · rw [hfailed] at hstep
      obtain ⟨hlt, hsame⟩ := List.getElem?_eq_some_iff.mp hget
      have hthreads : s.threads.set label.1 (.outside (op :: rest)) = s.threads := by
        rw [← hsame, List.set_getElem_self]
      simp only [Bool.false_eq_true, if_false, hthreads] at hstep
      exact Option.some.inj hstep ▸ .again
  next op rest hget => exact Option.some.inj hstep ▸ .load op rest hget
  next op rest value hget => exact Option.some.inj hstep ▸ .store op rest value hget
  next rest hget => exact Option.some.inj hstep ▸ .leave rest hget
  all_goals cases hstep

namespace Inv

/-- Nobody is inside but the thread that is. -/
theorem alone (hinv : Inv apply start programs s) (hget : s.threads[t]? = some pc)
    (hinside : pc.inside) {other : ℕ} {pc' : Pc ω α} (hother : s.threads[other]? = some pc')
    (hinside' : pc'.inside) : other = t := by
  by_contra hne
  have htwo := one_lt_countP Pc.inside hother hget hne hinside' hinside
  rw [hinv.exclusive] at htwo
  split_ifs at htwo <;> omega

theorem locked_of_inside (hinv : Inv apply start programs s) (hget : s.threads[t]? = some pc)
    (hinside : pc.inside) : s.locked = true := by
  have hpos : 0 < s.threads.countP Pc.inside :=
    List.countP_pos_iff.mpr ⟨pc, List.mem_of_getElem? hget, hinside⟩
  rw [hinv.exclusive] at hpos
  split_ifs at hpos with hlocked
  · exact hlocked
  · omega

theorem initial (apply : ω → α → α) (start : α) (programs : List (List ω)) :
    Inv apply start programs ⟨false, start, programs.map .outside, []⟩ where
  exclusive := by
    rw [if_neg Bool.false_ne_true, List.countP_eq_zero]
    simp only [List.mem_map]
    rintro _ ⟨ops, -, rfl⟩
    exact Bool.false_ne_true
  loaded op rest value hmem := by simp at hmem
  serial := by
    have hleft : (programs.map Pc.outside).map (Pc.left (α := α)) = programs := by
      rw [List.map_map]
      exact List.map_id programs
    rw [hleft]
    exact .initial apply start programs

theorem step (hinv : Inv apply start programs s) (heffect : Effect apply s t s') :
    Inv apply start programs s' := by
  cases heffect with
  | again => exact hinv
  | enter op rest hget hfree =>
      refine ⟨?_, fun op' rest' value hmem => ?_, ?_⟩
      · have hcount := countP_set_of_getElem? Pc.inside hget (.entered op rest)
        rw [hinv.exclusive, hfree] at hcount
        simpa [Pc.inside] using hcount
      · exact hinv.loaded op' rest' value ((List.mem_or_eq_of_mem_set hmem).resolve_right nofun)
      · dsimp only
        rw [map_set_of_eq Pc.left hget (.entered op rest) rfl]
        exact hinv.serial
  | load op rest hget =>
      refine ⟨?_, fun op' rest' value hmem => ?_, ?_⟩
      · have hcount := countP_set_of_getElem? Pc.inside hget (.loaded op rest s.object)
        simp only [Pc.inside, if_true, Nat.add_right_cancel_iff] at hcount
        exact hcount.trans hinv.exclusive
      · rcases List.mem_or_eq_of_mem_set hmem with hmem | heq
        · exact hinv.loaded op' rest' value hmem
        · exact (Pc.loaded.inj heq).2.2
      · dsimp only
        rw [map_set_of_eq Pc.left hget (.loaded op rest s.object) rfl]
        exact hinv.serial
  | store op rest value hget =>
      obtain rfl : value = s.object := hinv.loaded op rest value (List.mem_of_getElem? hget)
      refine ⟨?_, fun op' rest' value hmem => ?_, ?_⟩
      · have hcount := countP_set_of_getElem? Pc.inside hget (.leaving rest)
        simp only [Pc.inside, if_true, Nat.add_right_cancel_iff] at hcount
        exact hcount.trans hinv.exclusive
      · -- a second thread that has loaded would be inside as well
        obtain ⟨j, hj⟩ := List.getElem?_of_mem hmem
        rcases getElem?_set_cases hj with ⟨-, heq⟩ | ⟨hne, hold⟩
        · cases heq
        · exact absurd (hinv.alone hget rfl hold rfl) hne
      · dsimp only
        rw [List.map_set]
        exact hinv.serial.step (by rw [List.getElem?_map, hget]; rfl)
  | leave rest hget =>
      refine ⟨?_, fun op' rest' value hmem => ?_, ?_⟩
      · have hcount := countP_set_of_getElem? Pc.inside hget (.outside rest)
        rw [hinv.exclusive, hinv.locked_of_inside hget rfl] at hcount
        simpa [Pc.inside] using hcount
      · exact hinv.loaded op' rest' value ((List.mem_or_eq_of_mem_set hmem).resolve_right nofun)
      · dsimp only
        rw [map_set_of_eq Pc.left hget (.outside rest) rfl]
        exact hinv.serial

end Inv

theorem inv_of_reachable (htake : Locks take) (hreach : (system take apply start programs).Reachable s) :
    Inv apply start programs s := by
  refine hreach.invariant ?_ fun s label s' hinv hstep => hinv.step (effect_step htake hstep)
  rintro _ rfl
  exact .initial apply start programs

/-! ## Getting done -/

def Pc.work : Pc ω α → ℕ
  | .outside ops => 4 * ops.length
  | .entered _ rest => 4 * rest.length + 3
  | .loaded _ rest _ => 4 * rest.length + 2
  | .leaving rest => 4 * rest.length + 1

def State.work (s : State ω α) : ℕ := (s.threads.map Pc.work).sum

/-- Every thread has done its program. -/
def Finished (s : State ω α) : Prop := ∀ pc ∈ s.threads, pc = .outside []

/-- The thread inside, or any thread if nobody is, gets on with its work. -/
theorem exists_step (htake : Locks take) (hinv : Inv apply start programs s) (hleft : ¬ Finished s) :
    ∃ label s', step take apply s label = some s' ∧ s'.work < s.work := by
  obtain ⟨t, pc, hget, hon⟩ : ∃ (t : ℕ) (pc : Pc ω α), s.threads[t]? = some pc ∧
      (pc.inside ∨ s.locked = false ∧ pc ≠ .outside []) := by
    by_cases hlocked : s.locked
    · have hcount := hinv.exclusive
      rw [if_pos hlocked] at hcount
      obtain ⟨pc, hmem, hinside⟩ := List.countP_pos_iff.mp (hcount ▸ Nat.one_pos)
      obtain ⟨t, hget⟩ := List.getElem?_of_mem hmem
      exact ⟨t, pc, hget, .inl hinside⟩
    · simp only [Finished, not_forall] at hleft
      obtain ⟨pc, hmem, hne⟩ := hleft
      obtain ⟨t, hget⟩ := List.getElem?_of_mem hmem
      exact ⟨t, pc, hget, .inr ⟨by simpa using hlocked, hne⟩⟩
  have hsum := sum_map_set_of_getElem? Pc.work hget
  cases pc with
  | outside ops =>
      obtain ⟨hfree, hne⟩ := hon.resolve_left Bool.false_ne_true
      cases ops with
      | nil => exact absurd rfl hne
      | cons op rest =>
          refine ⟨(t, false), _, by rw [step, hget, hfree, htake.1], ?_⟩
          have := hsum (.entered op rest)
          simp only [Pc.work, List.length_cons] at this
          simp only [State.work, if_true]
          omega
  | entered op rest =>
      refine ⟨(t, false), _, by rw [step, hget], ?_⟩
      have := hsum (.loaded op rest s.object)
      simp only [Pc.work] at this
      simp only [State.work]
      omega
  | loaded op rest value =>
      refine ⟨(t, false), _, by rw [step, hget], ?_⟩
      have := hsum (.leaving rest)
      simp only [Pc.work] at this
      simp only [State.work]
      omega
  | leaving rest =>
      refine ⟨(t, false), _, by rw [step, hget], ?_⟩
      have := hsum (.outside rest)
      simp only [Pc.work] at this
      simp only [State.work]
      omega

/-- From every reachable state all programs can be done. -/
theorem leads_finished (htake : Locks take) : (system take apply start programs).Leads
    (system take apply start programs).Reachable Finished := by
  refine .of_measure State.work fun s hreach => ?_
  by_cases hfinished : Finished s
  · exact .inl hfinished
  · obtain ⟨label, s', hstep, hlt⟩ := exists_step htake (inv_of_reachable htake hreach) hfinished
    have hstep : (system take apply start programs).step s label = some s' := hstep
    refine .inr ⟨[label], s', ?_, hreach.step hstep, hlt⟩
    rw [TransitionSystem.execute_singleton, hstep]

end Guarded

end CppProjects
