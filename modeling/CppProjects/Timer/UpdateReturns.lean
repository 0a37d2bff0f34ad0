import CppProjects.Timer.Update

/-!
# When an update returns

A turn of `update` takes the first timer, whatever its period and its count.  A timer
with a count uses one of its rounds up, and an unlimited one comes closer to the time of
the update if its period is positive.
-/

namespace CppProjects

open Program

namespace Timer

variable {φ : Type} {now : ℤ} {t : Timer φ}

/-- The timer after `on_timer`. -/
def turned (t : Timer φ) : Timer φ := if t.mRepeat = 0 then t else t.fired

/-- The call that `on_timer` makes. -/
def called (t : Timer φ) : List (φ × ℤ) :=
  if t.mRepeat = 0 then [] else t.mFunc.toList.map fun func => (func, t.mTime)

/-- A timer without a limit that is due, and that is still due after its callback. -/
def Endless (now : ℤ) (t : Timer φ) : Prop :=
  t.mTime ≤ now ∧ t.mRepeat < 0 ∧ t.mPeriod ≤ 0

instance (now : ℤ) (t : Timer φ) : Decidable (t.Endless now) :=
  inferInstanceAs (Decidable (_ ∧ _ ∧ _))

/-- How many turns of an update at `now` the timer can take. -/
def rounds (now : ℤ) (t : Timer φ) : ℕ :=
  if 0 ≤ t.mRepeat then t.mRepeat.toNat + 1 else t.dueCount now

theorem Endless.fired (hendless : t.Endless now) : t.fired.Endless now := by
  obtain ⟨hdue, hrepeat, hperiod⟩ := hendless
  have hunlimited : t.fired.mRepeat = t.mRepeat := if_neg (by omega)
  refine ⟨?_, hunlimited.trans_lt hrepeat, hperiod⟩
  change t.mTime + t.mPeriod ≤ now
  omega

theorem not_endless_fired (hdue : t.mTime ≤ now) (hendless : ¬ t.Endless now) :
    ¬ t.fired.Endless now := by
  rintro ⟨-, hrepeat, hperiod⟩
  refine hendless ⟨hdue, ?_, hperiod⟩
  simp only [Timer.fired] at hrepeat
  split at hrepeat <;> omega

end Timer

namespace TimerManager

variable {φ : Type} {now first : ℤ} {t : Timer φ} {s s' : TimerManager φ}
  {others : List (ℤ × Timer φ)}

/-- Every timer stands under its time and has a callback. -/
def Armed (s : TimerManager φ) : Prop :=
  ∀ entry ∈ s.mTimers.entries, entry.1 = entry.2.mTime ∧ entry.2.mFunc.isSome

theorem onTimer_turned {func : φ} (hfunc : t.mFunc = some func) (s : TimerManager φ) :
    Returns (onTimer t) s t.turned { s with calls := s.calls ++ t.called } := by
  obtain ⟨mTime, mFunc, mPeriod, mRepeat⟩ := t
  obtain rfl : mFunc = some func := hfunc
  rw [onTimer, Timer.turned, Timer.called]
  by_cases hrepeat : mRepeat = 0
  · simp only [if_pos hrepeat, List.append_nil]
    exact returns_pure _ s
  · simp only [if_neg hrepeat]
    exact (returns_modify _ s).bind (returns_pure _ _)

/-- The turn of a first timer that is due. -/
theorem turn_of_due (hentries : s.mTimers.entries = (first, t) :: others) (hdue : first ≤ now)
    (hfunc : t.mFunc.isSome) :
    ∃ s', Returns (turn now 0) s (some 0) s' ∧ s'.calls = s.calls ++ t.called ∧
      s'.mTimers.entries.Perm (((again t.turned).map entryOf).toList ++ others) := by
  obtain ⟨func, hfunc⟩ := Option.isSome_iff_exists.mp hfunc
  obtain ⟨s', hrearm, hcalls, hperm⟩ :=
    rearm_returns (s := { s with calls := s.calls ++ t.called }) hentries t.turned
  refine ⟨s', ?_, hcalls, hperm⟩
  rw [turn]
  apply (returns_get s).bind
  rw [hentries]
  dsimp only [List.getElem?_cons_zero]
  rw [if_neg hdue.not_gt]
  exact (onTimer_turned hfunc s).bind (hrearm.bind (returns_pure _ s'))

/-- A turn ends the loop with nothing due, or takes the first timer. -/
theorem Armed.turn (harmed : s.Armed) (now : ℤ) :
    (Returns (turn now 0) s none s ∧ ∀ entry ∈ s.mTimers.entries, now < entry.1) ∨
      ∃ t others s', s.mTimers.entries = (t.mTime, t) :: others ∧ t.mTime ≤ now ∧
        t.mFunc.isSome ∧ Returns (TimerManager.turn now 0) s (some 0) s' ∧
        s'.calls = s.calls ++ t.called ∧
        s'.mTimers.entries.Perm (((again t.turned).map entryOf).toList ++ others) := by
  cases hentries : s.mTimers.entries with
  | nil =>
      refine .inl ⟨turn_exit ?_, fun _ hmem => nomatch hmem⟩
      rw [hentries]
      exact fun _ hmem => nomatch hmem
  | cons entry others =>
      obtain ⟨first, t⟩ := entry
      obtain ⟨htime, hfunc⟩ := harmed (first, t) (by simp [hentries])
      obtain rfl : first = t.mTime := htime
      by_cases hlt : now < t.mTime
      · refine .inl ⟨turn_exit ?_, ?_⟩
        · rw [hentries]
          intro entry hentry
          obtain rfl := Option.some.inj hentry
          exact hlt
        · have hsorted := s.mTimers.sorted
          rw [hentries] at hsorted
          intro entry hmem
          rcases List.mem_cons.mp hmem with rfl | hmem
          · exact hlt
          · exact hlt.trans_le ((List.pairwise_cons.mp hsorted).1 entry hmem)
      · obtain ⟨s', hreturns, hcalls, hperm⟩ := turn_of_due hentries (not_lt.mp hlt) hfunc
        exact .inr ⟨t, others, s', rfl, not_lt.mp hlt, hfunc, hreturns, hcalls, hperm⟩

/-- The entries after a turn: the others, and the timer if it is inserted again. -/
theorem mem_of_turn (hentries : s.mTimers.entries = (t.mTime, t) :: others)
    (hperm : s'.mTimers.entries.Perm (((again t.turned).map entryOf).toList ++ others))
    {entry : ℤ × Timer φ} (hmem : entry ∈ s'.mTimers.entries) :
    (t.mRepeat ≠ 0 ∧ entry = entryOf t.fired) ∨ entry ∈ s.mTimers.entries := by
  rw [hperm.mem_iff, List.mem_append, Option.mem_toList, Option.map_eq_some_iff] at hmem
  rcases hmem with ⟨t', hagain, rfl⟩ | hother
  · rw [again] at hagain
    split at hagain
    case isTrue => cases hagain
    case isFalse hrepeat =>
      obtain rfl := Option.some.inj hagain
      by_cases hzero : t.mRepeat = 0
      · rw [Timer.turned, if_pos hzero] at hrepeat
        exact absurd hzero hrepeat
      · rw [Timer.turned, if_neg hzero]
        exact .inl ⟨hzero, rfl⟩
  · exact .inr (by rw [hentries]; exact List.mem_cons_of_mem _ hother)

theorem Armed.of_turn (harmed : s.Armed) (hentries : s.mTimers.entries = (t.mTime, t) :: others)
    (hfunc : t.mFunc.isSome)
    (hperm : s'.mTimers.entries.Perm (((again t.turned).map entryOf).toList ++ others)) :
    s'.Armed := by
  intro entry hmem
  rcases mem_of_turn hentries hperm hmem with ⟨-, rfl⟩ | hmem
  · exact ⟨rfl, hfunc⟩
  · exact harmed entry hmem

/-! ## Returning -/

/-- How many turns the timers can take together. -/
def totalRounds (now : ℤ) (s : TimerManager φ) : ℕ :=
  (s.mTimers.entries.map fun entry => entry.2.rounds now).sum

theorem rounds_again_lt (hdue : t.mTime ≤ now) (hfunc : t.mFunc.isSome)
    (hendless : ¬ t.Endless now) :
    ((again t.turned).toList.map (Timer.rounds now)).sum < t.rounds now := by
  rcases lt_trichotomy t.mRepeat 0 with hrepeat | hrepeat | hrepeat
  · have hperiod : 1 ≤ t.mPeriod := by
      by_contra hperiod
      exact hendless ⟨hdue, hrepeat, by omega⟩
    have hunlimited : t.fired.mRepeat = t.mRepeat := if_neg (by omega)
    have hcount := Timer.dueCount_of_le ⟨hfunc, hperiod⟩ hdue
    rw [Timer.turned, if_neg hrepeat.ne, again, if_neg (by omega)]
    simp only [Option.toList_some, List.map_cons, List.map_nil, List.sum_cons, List.sum_nil]
    rw [Timer.rounds, Timer.rounds, if_neg (by omega), if_neg (by omega)]
    omega
  · rw [Timer.turned, if_pos hrepeat, again, if_pos hrepeat, Timer.rounds, if_pos (by omega)]
    exact Nat.succ_pos _
  · have hcounted : t.fired.mRepeat = t.mRepeat - 1 := if_pos hrepeat
    rw [Timer.turned, if_neg hrepeat.ne', again, Timer.rounds, if_pos hrepeat.le]
    split
    case isTrue => exact Nat.succ_pos _
    case isFalse =>
      simp only [Option.toList_some, List.map_cons, List.map_nil, List.sum_cons, List.sum_nil]
      rw [Timer.rounds, if_pos (by omega)]
      omega

theorem totalRounds_lt (hentries : s.mTimers.entries = (t.mTime, t) :: others)
    (hdue : t.mTime ≤ now) (hfunc : t.mFunc.isSome) (hendless : ¬ t.Endless now)
    (hperm : s'.mTimers.entries.Perm (((again t.turned).map entryOf).toList ++ others)) :
    s'.totalRounds now < s.totalRounds now := by
  have hlt := rounds_again_lt hdue hfunc hendless
  have hsum : s'.totalRounds now = ((((again t.turned).map entryOf).toList ++ others).map
      fun entry => entry.2.rounds now).sum := (hperm.map _).sum_eq
  have hagain : (((again t.turned).map entryOf).toList.map fun entry => entry.2.rounds now).sum =
      ((again t.turned).toList.map (Timer.rounds now)).sum := by
    cases again t.turned <;> rfl
  rw [hsum, List.map_append, List.sum_append, hagain, totalRounds, hentries, List.map_cons,
    List.sum_cons]
  exact Nat.add_lt_add_right hlt _

/-- Without an endless timer the loop returns, with nothing due any more. -/
theorem exists_loop_returns (harmed : s.Armed)
    (hendless : ∀ entry ∈ s.mTimers.entries, ¬ entry.2.Endless now) :
    ∃ it s', Returns (loop (TimerManager.turn now) (s.totalRounds now + 1) 0) s it s' ∧
      ∀ entry ∈ s'.mTimers.entries, now < entry.1 := by
  refine exists_loop_of_lt (fun (_ : ℕ) (s : TimerManager φ) => s.totalRounds now)
    (P := fun it s => it = 0 ∧ s.Armed ∧ ∀ entry ∈ s.mTimers.entries, ¬ entry.2.Endless now)
    (Q := fun _ s' => ∀ entry ∈ s'.mTimers.entries, now < entry.1) ?_ (Nat.lt_succ_self _) ⟨rfl, harmed, hendless⟩
  rintro it s ⟨rfl, harmed, hendless⟩
  rcases harmed.turn now with ⟨hexit, hlater⟩ |
    ⟨t, others, s', hentries, hdue, hfunc, hnext, -, hperm⟩
  · exact .inl ⟨s, hexit, hlater⟩
  · have hfirst : ¬ t.Endless now := hendless (t.mTime, t) (by simp [hentries])
    refine .inr ⟨0, s', hnext, ⟨rfl, harmed.of_turn hentries hfunc hperm, ?_⟩,
      totalRounds_lt hentries hdue hfunc hfirst hperm⟩
    intro entry hmem
    rcases mem_of_turn hentries hperm hmem with ⟨-, rfl⟩ | hmem
    · exact Timer.not_endless_fired hdue hfirst
    · exact hendless entry hmem

/-- An endless timer keeps the loop going. -/
theorem not_loop_returns (harmed : s.Armed)
    (hendless : ∃ entry ∈ s.mTimers.entries, entry.2.Endless now) (fuel it : ℕ) :
    ¬ Returns (loop (TimerManager.turn now) fuel 0) s it s' := by
  refine not_returns_loop (P := fun it s => it = 0 ∧ s.Armed ∧
    ∃ entry ∈ s.mTimers.entries, entry.2.Endless now) ?_ ⟨rfl, harmed, hendless⟩
  rintro it s ⟨rfl, harmed, entry, hmem, hendless⟩
  rcases harmed.turn now with ⟨-, hlater⟩ |
    ⟨t, others, s', hentries, hdue, hfunc, hnext, -, hperm⟩
  · have hkey := (harmed entry hmem).1
    exact absurd hendless.1 (not_le.mpr (hkey ▸ hlater entry hmem))
  · refine ⟨0, s', hnext, rfl, harmed.of_turn hentries hfunc hperm, ?_⟩
    rw [hentries] at hmem
    rcases List.mem_cons.mp hmem with rfl | hother
    · -- it is the endless timer's turn, and it is inserted again
      have hrepeat : t.mRepeat ≠ 0 := hendless.2.1.ne
      have hunlimited : t.fired.mRepeat ≠ 0 := hendless.fired.2.1.ne
      refine ⟨entryOf t.fired, ?_, hendless.fired⟩
      rw [hperm.mem_iff, Timer.turned, if_neg hrepeat, again, if_neg hunlimited]
      exact List.mem_cons_self
    · exact ⟨entry, hperm.mem_iff.mpr (List.mem_append_right _ hother), hendless⟩

/-! ## Managers that are scheduled and updated -/

/-- What `schedule` and finished updates make of an empty manager. -/
inductive Reached : TimerManager φ → Prop where
  | empty : Reached ⟨Multimap.empty, []⟩
  | schedule {s : TimerManager φ} (now milliseconds repeats : ℤ) (func : φ) (hs : Reached s) :
      Reached (s.schedule now milliseconds repeats func)
  | update {s s' : TimerManager φ} {fuel : ℕ} {now : ℤ} (hs : Reached s)
      (hreturns : Returns (update fuel now) s () s') : Reached s'

theorem Armed.update (harmed : s.Armed) {fuel : ℕ}
    (hreturns : Returns (TimerManager.update fuel now) s () s') : s'.Armed := by
  obtain ⟨t, s₁, hget, hrest⟩ := hreturns.bind_inv
  obtain ⟨rfl, rfl⟩ := hget.get_inv
  split at hrest
  · rwa [hrest.pure_inv.2]
  · obtain ⟨it, s₂, hloop, hpure⟩ := hrest.bind_inv
    obtain rfl := hpure.pure_inv.2
    refine hloop.loop_invariant (P := fun it s => it = 0 ∧ s.Armed) ?_ ?_ ⟨rfl, harmed⟩
    · rintro it s s' ⟨rfl, harmed⟩ hexit
      rcases harmed.turn now with ⟨hexit', -⟩ | ⟨t, others, s'', -, -, -, hnext, -, -⟩
      · rwa [(hexit.unique hexit').2]
      · cases (hexit.unique hnext).1
    · rintro it s next s' ⟨rfl, harmed⟩ hnext
      rcases harmed.turn now with ⟨hexit, -⟩ |
        ⟨t, others, s'', hentries, -, hfunc, hnext', -, hperm⟩
      · cases (hnext.unique hexit).1
      · obtain ⟨hzero, rfl⟩ := hnext.unique hnext'
        exact ⟨Option.some.inj hzero, harmed.of_turn hentries hfunc hperm⟩

theorem Reached.armed (hreached : s.Reached) : s.Armed := by
  induction hreached with
  | empty => exact fun _ hmem => nomatch hmem
  | schedule now milliseconds repeats func _ ih =>
      intro entry hmem
      rcases Multimap.mem_insert.mp hmem with rfl | hmem
      · exact ⟨rfl, rfl⟩
      · exact ih entry hmem
  | update _ hreturns ih => exact ih.update hreturns

/-- An update returns exactly when no timer without a limit is due that has a period
which does not take it forward. -/
theorem update_returns_iff (hreached : s.Reached) (now : ℤ) :
    (∃ fuel s', Returns (TimerManager.update fuel now) s () s') ↔
      ∀ entry ∈ s.mTimers.entries, ¬ entry.2.Endless now := by
  have harmed := hreached.armed
  constructor
  · rintro ⟨fuel, s', hreturns⟩ entry hmem hendless
    obtain ⟨current, s₁, hget, hrest⟩ := hreturns.bind_inv
    obtain ⟨rfl, rfl⟩ := hget.get_inv
    have hlength : s₁.mTimers.entries.length ≠ 0 := (List.length_pos_of_mem hmem).ne'
    rw [if_neg hlength] at hrest
    obtain ⟨it, s₂, hloop, -⟩ := hrest.bind_inv
    exact not_loop_returns harmed ⟨entry, hmem, hendless⟩ fuel it hloop
  · intro hendless
    obtain ⟨it, s', hloop, -⟩ := exists_loop_returns harmed hendless
    by_cases hempty : s.mTimers.entries.length = 0
    · refine ⟨0, s, (returns_get s).bind ?_⟩
      rw [if_pos hempty]
      exact returns_pure () s
    · refine ⟨s.totalRounds now + 1, s', (returns_get s).bind ?_⟩
      rw [if_neg hempty]
      exact hloop.bind (returns_pure () s')

/-- A timer that fires three times, with a period that goes back. -/
theorem update_returns_counted :
    ∃ fuel s', Returns (TimerManager.update fuel 5)
      ((⟨Multimap.empty, []⟩ : TimerManager Char).schedule 1 (-2) 3 'a') () s' := by
  refine (update_returns_iff (.schedule 1 (-2) 3 'a' .empty) 5).mpr fun entry hmem => ?_
  rcases Multimap.mem_insert.mp hmem with rfl | hmem
  · decide
  · exact nomatch hmem

/-- A timer without a limit and with the period zero. -/
theorem update_never_returns :
    ¬ ∃ fuel s', Returns (TimerManager.update fuel 0)
      ((⟨Multimap.empty, []⟩ : TimerManager Char).schedule 0 0 (-1) 'a') () s' := by
  rintro ⟨fuel, s', hreturns⟩
  obtain ⟨s, s₁, hget, hrest⟩ := hreturns.bind_inv
  obtain ⟨rfl, rfl⟩ := hget.get_inv
  obtain ⟨it, s₂, hloop, -⟩ := hrest.bind_inv
  have harmed := (Reached.empty.schedule 0 0 (-1) 'a').armed
  refine not_loop_returns harmed ⟨(0, ⟨0, some 'a', 0, -1⟩), ?_, ?_⟩ fuel it hloop
  · exact Multimap.mem_insert.mpr (.inl rfl)
  · decide

end TimerManager

end CppProjects
