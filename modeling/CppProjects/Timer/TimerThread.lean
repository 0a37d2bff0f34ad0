import CppProjects.Core.TransitionSystem

/-!
# A timer with a thread

`Timer` (version 01) runs its callback on a thread of its own, without a limit or for a
count of rounds, and `stop` clears the flag that the thread looks at.  A step is one load,
sleep, call or decrement of the thread, or the store of `stop`; how long a sleep takes is
left out.
-/

namespace CppProjects

namespace TimerThread

/-- Where the thread is. -/
inductive Pc where
  /-- `if(m_repeat < 0)` -/
  | branch
  /-- `while(m_active.load())` -/
  | whileActive
  | sleepingUnlimited
  | loadUnlimited
  | callUnlimited
  /-- `while(m_repeat > 0)` -/
  | whileRepeat
  | loadBefore
  | sleeping
  | firstCall
  | loadAfter
  | secondCall
  /-- `m_repeat--` -/
  | decrement
  | done
  deriving DecidableEq, Repr

/-- `calls` and `stopped` are histories: how often `m_func` has been called, and where the
thread was, after how many calls, when `stop` took effect. -/
structure State where
  mActive : Bool
  mRepeat : ℤ
  pc : Pc
  calls : ℕ
  stopped : Option (Pc × ℕ)
  deriving DecidableEq, Repr

inductive Action where
  | thread
  | stop
  deriving DecidableEq, Repr

namespace State

/-- `start` on a `Timer(repeat)` that is not active. -/
def start (repeats : ℤ) : State := ⟨true, repeats, .branch, 0, none⟩

/-- `m_func()`. -/
def call (s : State) (next : Pc) : State := { s with pc := next, calls := s.calls + 1 }

/-- What the thread does next. -/
def advance (s : State) : Option State :=
  match s.pc with
  | .branch => some { s with pc := if s.mRepeat < 0 then .whileActive else .whileRepeat }
  | .whileActive => some { s with pc := if s.mActive then .sleepingUnlimited else .done }
  | .sleepingUnlimited => some { s with pc := .loadUnlimited }
  | .loadUnlimited => some { s with pc := if !s.mActive then .done else .callUnlimited }
  | .callUnlimited => some (s.call .whileActive)
  | .whileRepeat => some { s with pc := if s.mRepeat > 0 then .loadBefore else .done }
  | .loadBefore => some { s with pc := if !s.mActive then .done else .sleeping }
  | .sleeping => some { s with pc := .firstCall }
  | .firstCall => some (s.call .loadAfter)
  | .loadAfter => some { s with pc := if !s.mActive then .done else .secondCall }
  | .secondCall => some (s.call .decrement)
  | .decrement => some { s with mRepeat := s.mRepeat - 1, pc := .whileRepeat }
  | .done => none

/-- `stop`, called once. -/
def stop (s : State) : Option State :=
  if s.stopped.isSome then none
  else some { s with mActive := false, stopped := some (s.pc, s.calls) }

def step (s : State) : Action → Option State
  | .thread => s.advance
  | .stop => s.stop

end State

/-- The timer that is started for `repeats` rounds. -/
def system (repeats : ℤ) : TransitionSystem State Action where
  initial s := s = .start repeats
  step := State.step

/-- What is asked of a state: no call above the count, no call after a stop that came
during a sleep, and the whole count if the thread ends without a stop. -/
structure Honours (repeats : ℕ) (s : State) : Prop where
  calls_le : s.calls ≤ repeats
  stopped_asleep : ∀ calls, s.stopped = some (.sleeping, calls) → s.calls = calls
  done : s.pc = .done → s.stopped = none → s.calls = repeats

/-- A step that calls back although the thread was stopped in its sleep, or with so few
rounds left that the two calls of each round have used up the count. -/
def Excess (repeats : ℕ) (s : State) : Action → Prop
  | .stop => False
  | .thread =>
      (s.pc = .firstCall ∧
        (s.stopped.map Prod.fst = some .sleeping ∨ repeats ≤ 2 * (repeats - s.mRepeat))) ∨
      (s.pc = .secondCall ∧ repeats ≤ 2 * (repeats - s.mRepeat) + 1)

/-- How many calls of the round have been made. -/
def Pc.made : Pc → ℕ
  | .loadAfter | .secondCall => 1
  | .decrement => 2
  | _ => 0

/-- In a round there is a round left, and each full one has made two calls. -/
structure Counting (repeats : ℕ) (s : State) : Prop where
  active : s.mActive = s.stopped.isNone
  bounded : 0 ≤ s.mRepeat ∧ s.mRepeat ≤ repeats
  counted : s.pc ≠ .whileActive ∧ s.pc ≠ .sleepingUnlimited ∧ s.pc ≠ .loadUnlimited ∧
    s.pc ≠ .callUnlimited
  inRound : s.pc ≠ .branch → s.pc ≠ .whileRepeat → s.pc ≠ .done → 0 < s.mRepeat
  calls_eq : s.pc ≠ .done → (s.calls : ℤ) = 2 * (repeats - s.mRepeat) + s.pc.made
  done : s.pc = .done → s.stopped = none → s.mRepeat = 0 ∧ s.calls = 2 * repeats
  asleep : s.stopped.map Prod.fst = some .sleeping → s.pc = .sleeping ∨ s.pc = .firstCall

section Steps

variable {repeats : ℕ} {s s' : State}

theorem counting_start (repeats : ℕ) : Counting repeats (.start repeats) where
  active := rfl
  bounded := ⟨Int.natCast_nonneg _, le_refl _⟩
  counted := by simp [State.start]
  inRound hbranch := absurd rfl hbranch
  calls_eq _ := by simp [State.start, Pc.made]
  done hdone := by simp [State.start] at hdone
  asleep hasleep := by simp [State.start] at hasleep

theorem Counting.stop (hcounting : Counting repeats s) (hstep : s.stop = some s') :
    Counting repeats s' ∧ s'.calls = s.calls ∧ s'.pc = s.pc ∧ s'.stopped = some (s.pc, s.calls) := by
  rw [State.stop] at hstep
  split at hstep
  case isTrue => cases hstep
  case isFalse hnone =>
    obtain rfl := Option.some.inj hstep
    refine ⟨⟨rfl, hcounting.bounded, hcounting.counted, hcounting.inRound, hcounting.calls_eq,
      fun _ hstopped => ?_, fun hasleep => ?_⟩, rfl, rfl, rfl⟩
    · cases hstopped
    · exact .inl (Option.some.inj hasleep)

/-- The thread keeps the count, except where it calls back after a stop in its sleep. -/
theorem Counting.advance (hcounting : Counting repeats s) (hstep : s.advance = some s')
    (hawake : s.pc = .firstCall → s.stopped.map Prod.fst ≠ some .sleeping) :
    Counting repeats s' := by
  obtain ⟨mActive, mRepeat, pc, calls, stopped⟩ := s
  obtain ⟨hactive, hbounded, hcounted, hinRound, hcalls, hdone, hasleep⟩ := hcounting
  cases pc
  case whileActive | sleepingUnlimited | loadUnlimited | callUnlimited => simp at hcounted
  case done => cases hstep
  -- each step moves to the next place of the round, and the facts about it follow
  all_goals
    simp only [State.advance, State.call, Option.some.injEq] at hstep
    simp only [Pc.made] at hcalls
    subst hstep
    constructor
  all_goals grind [Pc.made]

/-- Only the two calls of a round count. -/
theorem advance_calls (hcounting : Counting repeats s) (hstep : s.advance = some s') :
    s'.stopped = s.stopped ∧
      (s'.calls = s.calls ∨
        (s.pc = .firstCall ∨ s.pc = .secondCall) ∧ s'.calls = s.calls + 1) := by
  have hcall : s.pc ≠ .callUnlimited := hcounting.counted.2.2.2
  rw [State.advance] at hstep
  cases hpc : s.pc <;> rw [hpc] at hstep
  case callUnlimited => exact absurd hpc hcall
  case done => cases hstep
  case firstCall | secondCall =>
    obtain rfl := Option.some.inj hstep
    exact ⟨rfl, .inr ⟨by simp, rfl⟩⟩
  all_goals
    obtain rfl := Option.some.inj hstep
    exact ⟨rfl, .inl rfl⟩

/-- A step that is not in excess keeps what is asked. -/
theorem Honours.step (hcounting : Counting repeats s) (hhonours : Honours repeats s) {a : Action}
    (hstep : s.step a = some s') (hexcess : ¬ Excess repeats s a) :
    Counting repeats s' ∧ Honours repeats s' := by
  cases a with
  | stop =>
      obtain ⟨hcounting', hcalls, hpc, hstopped⟩ := hcounting.stop hstep
      refine ⟨hcounting', hcalls.le.trans hhonours.calls_le, fun calls hasleep => ?_,
        fun _ hnone => ?_⟩
      · rw [hstopped, Option.some.injEq, Prod.mk.injEq] at hasleep
        exact hcalls.trans hasleep.2
      · rw [hstopped] at hnone
        cases hnone
  | thread =>
      rw [Excess, not_or] at hexcess
      obtain ⟨hfirst, hsecond⟩ := hexcess
      have hcounting' := hcounting.advance hstep fun hpc hasleep =>
        hfirst ⟨hpc, .inl hasleep⟩
      obtain ⟨hstopped, hcalls⟩ := advance_calls hcounting hstep
      have hle : s'.calls ≤ repeats := by
        rcases hcalls with hsame | ⟨hpc | hpc, hmore⟩
        · exact hsame.le.trans hhonours.calls_le
        · have hcount := hcounting.calls_eq (by simp [hpc])
          have hroom : ¬ (repeats : ℤ) ≤ 2 * (repeats - s.mRepeat) :=
            fun hfull => hfirst ⟨hpc, .inr hfull⟩
          simp only [hpc, Pc.made] at hcount
          omega
        · have hcount := hcounting.calls_eq (by simp [hpc])
          have hroom : ¬ (repeats : ℤ) ≤ 2 * (repeats - s.mRepeat) + 1 :=
            fun hfull => hsecond ⟨hpc, hfull⟩
          simp only [hpc, Pc.made] at hcount
          omega
      refine ⟨hcounting', hle, fun calls hasleep => ?_, fun hdone hnone => ?_⟩
      · rw [hstopped] at hasleep
        have hmap : s.stopped.map Prod.fst = some .sleeping := by rw [hasleep]; rfl
        rcases hcalls with hsame | ⟨hpc | hpc, -⟩
        · exact hsame.trans (hhonours.stopped_asleep calls hasleep)
        · exact absurd ⟨hpc, .inl hmap⟩ hfirst
        · have hplace := hcounting.asleep hmap
          simp [hpc] at hplace
      · have hcount := (hcounting'.done hdone hnone).2
        omega

/-- A step in excess makes a call too many. -/
theorem Excess.violates (hcounting : Counting repeats s) (hhonours : Honours repeats s)
    {a : Action} (hstep : s.step a = some s') (hexcess : Excess repeats s a) :
    ¬ Honours repeats s' := by
  intro hhonours'
  cases a with
  | stop => exact hexcess
  | thread =>
      have hle := hhonours'.calls_le
      rcases hexcess with ⟨hpc, hwhy⟩ | ⟨hpc, hfull⟩
      · have hcount := hcounting.calls_eq (by simp [hpc])
        simp only [State.step, State.advance, hpc, Option.some.injEq] at hstep
        subst hstep
        rcases hwhy with hasleep | hfull
        · obtain ⟨⟨pc, calls⟩, hstopped, hsleeping⟩ := Option.map_eq_some_iff.mp hasleep
          obtain rfl : pc = .sleeping := hsleeping
          have hbefore := hhonours.stopped_asleep calls hstopped
          have hafter : s.calls + 1 = calls := hhonours'.stopped_asleep calls hstopped
          omega
        · simp only [hpc, Pc.made] at hcount
          simp only [State.call] at hle
          omega
      · have hcount := hcounting.calls_eq (by simp [hpc])
        simp only [State.step, State.advance, hpc, Option.some.injEq] at hstep
        subst hstep
        simp only [hpc, Pc.made] at hcount
        simp only [State.call] at hle
        omega

end Steps

section Runs

open TransitionSystem

variable {repeats : ℕ}

/-- Without a stop, `k` rounds make twice as many calls. -/
theorem exists_run_rounds (k : ℕ) (hk : k ≤ repeats) :
    ∃ visited, (system repeats).Run visited ⟨true, repeats - k, .whileRepeat, 2 * k, none⟩ := by
  induction k with
  | zero =>
      have hnonneg : ¬ (repeats : ℤ) < 0 := by omega
      have hstep : (system repeats).step (.start repeats) .thread =
          some ⟨true, repeats, .whileRepeat, 0, none⟩ := by
        simp only [system, State.step, State.advance, State.start, if_neg hnonneg]
      have hstart : (system repeats).Run [] (.start repeats) := .initial rfl
      rw [Nat.cast_zero, sub_zero]
      exact ⟨_, hstart.step hstep⟩
  | succ k ih =>
      obtain ⟨visited, hrun⟩ := ih (by omega)
      have hpos : (repeats : ℤ) - k > 0 := by omega
      have hround : (system repeats).execute ⟨true, repeats - k, .whileRepeat, 2 * k, none⟩
          (List.replicate 7 .thread) =
            some ⟨true, repeats - k - 1, .whileRepeat, 2 * k + 1 + 1, none⟩ := by
        simp only [List.replicate, execute_cons, system, State.step, State.advance, State.call,
          if_pos hpos, Option.bind_some, Bool.not_true, Bool.false_eq_true, if_false]
        rfl
      obtain ⟨visited', hrun'⟩ := hrun.execute hround
      rw [Nat.cast_succ, ← sub_sub]
      exact ⟨visited', hrun'⟩

/-- Without a stop, the thread ends after two calls for each round. -/
theorem exists_run_done (repeats : ℕ) :
    ∃ visited, (system repeats).Run visited ⟨true, 0, .done, 2 * repeats, none⟩ := by
  obtain ⟨visited, hrun⟩ := exists_run_rounds repeats (le_refl repeats)
  rw [sub_self] at hrun
  exact ⟨_, hrun.step (a := .thread) rfl⟩

/-- With no round to run, the thread does not come to a call. -/
theorem idle_of_reachable {s : State} (hreach : (system 0).Reachable s) :
    s.mRepeat = 0 ∧ (s.pc = .branch ∨ s.pc = .whileRepeat ∨ s.pc = .done) := by
  refine hreach.invariant
    (P := fun s => s.mRepeat = 0 ∧ (s.pc = .branch ∨ s.pc = .whileRepeat ∨ s.pc = .done)) ?_ ?_
  · rintro s rfl
    exact ⟨rfl, .inl rfl⟩
  · rintro s a s' ⟨hrepeat, hpc⟩ hstep
    cases a with
    | stop =>
        simp only [system, State.step, State.stop] at hstep
        split at hstep
        · cases hstep
        · obtain rfl := Option.some.inj hstep
          exact ⟨hrepeat, hpc⟩
    | thread =>
        simp only [system, State.step, State.advance] at hstep
        rcases hpc with hpc | hpc | hpc <;>
          simp only [hpc, hrepeat, lt_irrefl, if_false, Option.some.injEq] at hstep
        · subst hstep
          exact ⟨rfl, .inr (.inl rfl)⟩
        · subst hstep
          exact ⟨rfl, .inr (.inr rfl)⟩
        · cases hstep

/-- A run honours the count and the stop exactly when none of its steps is in excess; all
runs do exactly when no round is asked for. -/
theorem counted_honours_iff (repeats : ℕ) :
    (∀ visited s, (system repeats).Run visited s →
      (((∀ before ∈ visited, Honours repeats before.1) ∧ Honours repeats s) ↔
        ∀ taken ∈ visited, ¬ Excess repeats taken.1 taken.2)) ∧
    ((∀ visited s, (system repeats).Run visited s → Honours repeats s) ↔ repeats = 0) := by
  have hiff : ∀ visited s, (system repeats).Run visited s →
      (((∀ before ∈ visited, Honours repeats before.1) ∧ Honours repeats s) ↔
        ∀ taken ∈ visited, ¬ Excess repeats taken.1 taken.2) := by
    intro visited s hrun
    apply hrun.forall_iff (Q := fun s => Counting repeats s ∧ Honours repeats s)
    · exact fun s hs => hs.2
    · rintro s rfl
      refine ⟨counting_start repeats, Nat.zero_le _, fun calls hasleep => ?_, fun hdone => ?_⟩
      · cases hasleep
      · cases hdone
    · exact fun s a s' hs hstep hexcess => hs.2.step hs.1 hstep hexcess
    · exact fun s a s' hs hstep hexcess => hexcess.violates hs.1 hs.2 hstep
  refine ⟨hiff, fun hall => ?_, ?_⟩
  · obtain ⟨visited, hrun⟩ := exists_run_done repeats
    have hdone : 2 * repeats = repeats := (hall _ _ hrun).done rfl rfl
    omega
  · rintro rfl visited s hrun
    refine ((hiff visited s hrun).mpr fun taken hmem hexcess => ?_).2
    obtain ⟨-, hpc⟩ := idle_of_reachable (hrun.reachable_of_mem hmem)
    obtain ⟨before, a⟩ := taken
    have hexcess : Excess 0 before a := hexcess
    cases a with
    | stop => exact hexcess
    | thread => rcases hexcess with ⟨hcall, -⟩ | ⟨hcall, -⟩ <;> simp [hcall] at hpc

/-- A timer for one round that nobody stops calls back twice. -/
theorem counted_calls_twice :
    ∃ visited, (system (1 : ℕ)).Run visited ⟨true, 0, .done, 2, none⟩ :=
  exists_run_done 1

/-- Where the thread can be without a limit, and what a stop in its sleep leaves it to do. -/
structure Unlimited (s : State) : Prop where
  negative : s.mRepeat < 0
  pc : s.pc = .branch ∨ s.pc = .whileActive ∨ s.pc = .sleepingUnlimited ∨
    s.pc = .loadUnlimited ∨ s.pc = .callUnlimited ∨ s.pc = .done
  asleep : ∀ calls, s.stopped = some (.sleepingUnlimited, calls) → s.mActive = false ∧
    s.calls = calls ∧ (s.pc = .sleepingUnlimited ∨ s.pc = .loadUnlimited ∨ s.pc = .done)

theorem Unlimited.step {s s' : State} {a : Action} (hs : Unlimited s)
    (hstep : s.step a = some s') : Unlimited s' := by
  obtain ⟨mActive, mRepeat, pc, calls, stopped⟩ := s
  obtain ⟨hnegative, hpc, hasleep⟩ := hs
  cases a with
  | stop =>
      simp only [State.step, State.stop] at hstep
      split at hstep
      case isTrue => cases hstep
      case isFalse =>
        obtain rfl := Option.some.inj hstep
        refine ⟨hnegative, hpc, fun calls' hstopped => ?_⟩
        rw [Option.some.injEq, Prod.mk.injEq] at hstopped
        exact ⟨rfl, hstopped.2, .inl hstopped.1⟩
  | thread =>
      cases pc
      case whileRepeat | loadBefore | sleeping | firstCall | loadAfter | secondCall | decrement =>
        simp at hpc
      case done => cases hstep
      all_goals
        simp only [State.step, State.advance, State.call, Option.some.injEq] at hstep
        subst hstep
        constructor
      all_goals grind

/-- Without a limit, a stop during a sleep is the end of the calls. -/
theorem unlimited_honours_stop {repeats : ℤ} (hrepeats : repeats < 0) {s : State}
    (hreach : (system repeats).Reachable s) {calls : ℕ}
    (hasleep : s.stopped = some (.sleepingUnlimited, calls)) : s.calls = calls := by
  have hunlimited : Unlimited s := by
    refine hreach.invariant (P := Unlimited) ?_ fun s a s' hs hstep => hs.step hstep
    rintro s rfl
    exact ⟨hrepeats, .inl rfl, fun calls hstopped => nomatch hstopped⟩
  exact (hunlimited.asleep calls hasleep).2.1

end Runs

end TimerThread

end CppProjects
