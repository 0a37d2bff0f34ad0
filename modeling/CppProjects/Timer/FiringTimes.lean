import CppProjects.Core.TransitionSystem
import CppProjects.Timer.UpdateReturns

/-!
# When the timers fire

A manager with the clock that `now` reads, in microseconds.  A step is one `schedule`, the
entry of `update`, or one turn of its loop, so an update that does not end is followed as
well.  What fires is dated with the clock of its update.
-/

namespace CppProjects

open Program

structure Session (φ : Type) where
  clock : ℤ
  mTimers : Multimap ℤ (Timer φ)
  /-- The iterator of the update that is running. -/
  it : Option ℕ
  /-- The calls with the clock they were made at. -/
  fired : List (φ × ℤ)

namespace Session

variable {φ : Type}

inductive Action (φ : Type) where
  | schedule (clock milliseconds repeats : ℤ) (func : φ)
  | update (clock : ℤ)
  | turn
  deriving DecidableEq, Repr

def manager (s : Session φ) : TimerManager φ := ⟨s.mTimers, []⟩

def schedule (s : Session φ) (clock milliseconds repeats : ℤ) (func : φ) : Session φ :=
  { s with clock, mTimers := (s.manager.schedule clock milliseconds repeats func).mTimers }

/-- `update` up to its loop. -/
def update (s : Session φ) (clock : ℤ) : Session φ :=
  { s with clock, it := if s.mTimers.entries.length = 0 then none else some 0 }

def turn (s : Session φ) (it : ℕ) : Option (Session φ) :=
  match (TimerManager.turn s.clock it).run.run s.manager with
  | some (.ok next, manager') => some {
      s with
      mTimers := manager'.mTimers
      it := next
      fired := s.fired ++ manager'.calls.map fun call => (call.1, s.clock) }
  | _ => none

/-- The clock does not go back, and the calls do not overlap. -/
def step (s : Session φ) : Action φ → Option (Session φ)
  | .schedule clock milliseconds repeats func =>
      if s.it = none ∧ s.clock ≤ clock then some (s.schedule clock milliseconds repeats func)
      else none
  | .update clock => if s.it = none ∧ s.clock ≤ clock then some (s.update clock) else none
  | .turn => s.it.bind s.turn

section Turn

variable {s s' : Session φ}

/-- One turn of the loop ends the update or takes the first timer. -/
theorem turn_cases (harmed : s.manager.Armed) :
    (s.turn 0 = some { s with it := none } ∧ ∀ entry ∈ s.mTimers.entries, s.clock < entry.1) ∨
      ∃ t others mTimers', s.mTimers.entries = (t.mTime, t) :: others ∧ t.mTime ≤ s.clock ∧
        t.mFunc.isSome ∧
        s.turn 0 = some { s with
          mTimers := mTimers'
          it := some 0
          fired := s.fired ++ t.called.map fun call => (call.1, s.clock) } ∧
        mTimers'.entries.Perm
          (((TimerManager.again t.turned).map TimerManager.entryOf).toList ++ others) := by
  rcases harmed.turn s.clock with ⟨hexit, hlater⟩ |
    ⟨t, others, manager', hentries, hdue, hfunc, hnext, hcalls, hperm⟩
  · refine .inl ⟨?_, hlater⟩
    have hrun : (TimerManager.turn s.clock 0).run.run s.manager =
      some (.ok none, s.manager) := hexit
    rw [turn, hrun]
    simp only [manager, List.map_nil, List.append_nil]
  · refine .inr ⟨t, others, manager'.mTimers, hentries, hdue, hfunc, ?_, hperm⟩
    have hrun : (TimerManager.turn s.clock 0).run.run s.manager =
      some (.ok (some 0), manager') := hnext
    have hcalls : manager'.calls = t.called := hcalls
    rw [turn, hrun]
    simp only [hcalls]

end Turn

section Tracking

variable [DecidableEq φ] (func : φ) (t0 milliseconds repeats : ℤ)

/-- The clock at each firing of the timer. -/
def firingTimes (s : Session φ) : List ℤ :=
  (s.fired.filter fun call => call.1 = func).map Prod.snd

/-- The entry of the timer, if it is still there. -/
def own (s : Session φ) : List (ℤ × Timer φ) :=
  s.mTimers.entries.filter fun entry => entry.2.mFunc = some func

/-- The `k`-th firing has not come before `k` periods, counted from zero. -/
def OnTime (s : Session φ) : Prop :=
  ∀ (k : ℕ) (time : ℤ), (s.firingTimes func)[k]? = some time →
    t0 + k * (1000 * milliseconds) ≤ time

/-- A turn that fires the timer at a clock which is fewer milliseconds after `t0` than its
stored time is microseconds. -/
def TooSoon (s : Session φ) (a : Action φ) : Prop :=
  a = .turn ∧ s.it = some 0 ∧ ∃ t others, s.mTimers.entries = (t.mTime, t) :: others ∧
    t.mFunc = some func ∧ t.mRepeat ≠ 0 ∧ t.mTime ≤ s.clock ∧
    s.clock - t0 < 1000 * (t.mTime - t0)

/-- The sessions in which the timer has been scheduled just now, and what other calls make
of them. -/
def system : TransitionSystem (Session φ) (Action φ) where
  initial s := ∃ before : Session φ, before.manager.Armed ∧ before.it = none ∧
    before.clock ≤ t0 ∧ before.own func = [] ∧ before.firingTimes func = [] ∧
    s = before.schedule t0 milliseconds repeats func
  step s a :=
    match a with
    | .schedule _ _ _ other => if other = func then none else s.step a
    | _ => s.step a

/-- The timer's entry after so many firings. -/
structure Entry (fired : ℕ) (entry : ℤ × Timer φ) : Prop where
  key : entry.1 = entry.2.mTime
  time : entry.2.mTime = t0 + fired * milliseconds
  period : entry.2.mPeriod = milliseconds
  repeats : repeats < 0 ∧ entry.2.mRepeat < 0 ∨
    0 ≤ entry.2.mRepeat ∧ entry.2.mRepeat + fired = repeats

structure Tracked (s : Session φ) : Prop where
  armed : s.manager.Armed
  clock : t0 ≤ s.clock
  it : s.it = none ∨ s.it = some 0
  own : s.own func = [] ∨ ∃ entry, s.own func = [entry] ∧
    Entry t0 milliseconds repeats (s.firingTimes func).length entry

end Tracking

section Steps

variable [DecidableEq φ] {func other : φ} {t0 milliseconds repeats clock : ℤ} {s s' : Session φ}
  {t : Timer φ} {others : List (ℤ × Timer φ)} {mTimers' : Multimap ℤ (Timer φ)}

omit [DecidableEq φ] in
theorem armed_schedule (harmed : s.manager.Armed) (clock milliseconds repeats : ℤ) (func : φ) :
    (s.schedule clock milliseconds repeats func).manager.Armed := by
  intro entry hmem
  rcases Multimap.mem_insert.mp hmem with rfl | hmem
  · exact ⟨rfl, rfl⟩
  · exact harmed entry hmem

theorem own_schedule_perm (s : Session φ) (clock milliseconds repeats : ℤ) (func other : φ) :
    ((s.schedule clock milliseconds repeats other).own func).Perm
      ((((clock, ⟨clock, some other, milliseconds, repeats⟩) : ℤ × Timer φ) ::
        s.mTimers.entries).filter fun entry => entry.2.mFunc = some func) :=
  (Multimap.entries_insert_perm _ _ _).filter _

theorem own_schedule_self (hown : s.own func = []) (clock milliseconds repeats : ℤ) :
    (s.schedule clock milliseconds repeats func).own func =
      [(clock, ⟨clock, some func, milliseconds, repeats⟩)] := by
  have hperm := own_schedule_perm s clock milliseconds repeats func func
  rw [List.filter_cons_of_pos (by simp)] at hperm
  rw [own] at hown
  rw [hown] at hperm
  exact List.perm_singleton.mp hperm

/-- A list with at most one element has no other permutation. -/
theorem eq_of_perm_of_le_one {α : Type} {xs ys : List α} (hperm : xs.Perm ys)
    (hys : ys = [] ∨ ∃ y, ys = [y]) : xs = ys := by
  rcases hys with rfl | ⟨y, rfl⟩
  · exact List.perm_nil.mp hperm
  · exact List.perm_singleton.mp hperm

theorem Tracked.own_le_one (htracked : Tracked func t0 milliseconds repeats s) :
    s.own func = [] ∨ ∃ entry, s.own func = [entry] :=
  htracked.own.imp_right fun ⟨entry, hown, _⟩ => ⟨entry, hown⟩

theorem Tracked.schedule (htracked : Tracked func t0 milliseconds repeats s)
    (hclock : s.clock ≤ clock) (milliseconds' repeats' : ℤ) (hother : other ≠ func) :
    Tracked func t0 milliseconds repeats (s.schedule clock milliseconds' repeats' other) := by
  have hperm := own_schedule_perm s clock milliseconds' repeats' func other
  rw [List.filter_cons_of_neg (by simpa using hother)] at hperm
  have hown : (s.schedule clock milliseconds' repeats' other).own func = s.own func :=
    eq_of_perm_of_le_one hperm htracked.own_le_one
  refine ⟨armed_schedule htracked.armed _ _ _ _, htracked.clock.trans hclock, htracked.it, ?_⟩
  rw [hown]
  exact htracked.own

theorem Tracked.update (htracked : Tracked func t0 milliseconds repeats s)
    (hclock : s.clock ≤ clock) : Tracked func t0 milliseconds repeats (s.update clock) := by
  refine ⟨htracked.armed, htracked.clock.trans hclock, ?_, htracked.own⟩
  simp only [Session.update]
  split
  · exact .inl rfl
  · exact .inr rfl

/-- The timer's entry is the first one when it is the timer's turn. -/
theorem Tracked.first (htracked : Tracked func t0 milliseconds repeats s)
    (hentries : s.mTimers.entries = (t.mTime, t) :: others) (hfunc : t.mFunc = some func) :
    Entry t0 milliseconds repeats (s.firingTimes func).length (t.mTime, t) ∧
      (others.filter fun entry => entry.2.mFunc = some func) = [] := by
  have hown : s.own func = (t.mTime, t) :: others.filter fun entry => entry.2.mFunc = some func := by
    rw [Session.own, hentries, List.filter_cons_of_pos (by simpa using hfunc)]
  rcases htracked.own with hnone | ⟨entry, hone, hentry⟩
  · rw [hown] at hnone
    cases hnone
  · rw [hown, List.cons.injEq] at hone
    obtain ⟨rfl, hrest⟩ := hone
    exact ⟨hentry, hrest⟩

/-- The session after the turn of its first timer. -/
def afterTurn (s : Session φ) (t : Timer φ) (mTimers' : Multimap ℤ (Timer φ)) : Session φ :=
  { s with
    mTimers := mTimers'
    it := some 0
    fired := s.fired ++ t.called.map fun call => (call.1, s.clock) }

theorem firingTimes_afterTurn (func : φ) (s : Session φ) (mTimers' : Multimap ℤ (Timer φ))
    (hsome : t.mFunc.isSome) :
    (s.afterTurn t mTimers').firingTimes func = s.firingTimes func ++
      if t.mFunc = some func ∧ t.mRepeat ≠ 0 then [s.clock] else [] := by
  obtain ⟨called, hcalled⟩ := Option.isSome_iff_exists.mp hsome
  rw [firingTimes, firingTimes, afterTurn, List.filter_append, List.map_append, Timer.called, hcalled]
  by_cases hrepeat : t.mRepeat = 0
  · simp [hrepeat]
  · by_cases hfunc : called = func <;> simp [hrepeat, hfunc]

omit [DecidableEq φ] in
/-- What is inserted again calls the same function. -/
theorem mFunc_of_mem_again {entry : ℤ × Timer φ}
    (hmem : entry ∈ ((TimerManager.again t.turned).map TimerManager.entryOf).toList) :
    entry.2.mFunc = t.mFunc := by
  have hsame : t.turned.mFunc = t.mFunc := by
    rw [Timer.turned]
    split <;> rfl
  rw [Option.mem_toList, Option.map_eq_some_iff] at hmem
  obtain ⟨t', hagain, rfl⟩ := hmem
  rw [TimerManager.again] at hagain
  split at hagain
  · cases hagain
  · obtain rfl := Option.some.inj hagain
    exact hsame

/-- What a turn leaves of the timer's entry. -/
theorem own_afterTurn_perm (func : φ) (hentries : s.mTimers.entries = (t.mTime, t) :: others)
    (hperm : mTimers'.entries.Perm
      (((TimerManager.again t.turned).map TimerManager.entryOf).toList ++ others)) :
    ((s.afterTurn t mTimers').own func).Perm
      (if t.mFunc = some func then
        ((TimerManager.again t.turned).map TimerManager.entryOf).toList ++
          others.filter fun entry => entry.2.mFunc = some func
      else s.own func) := by
  have hfilter := hperm.filter fun entry => decide (entry.2.mFunc = some func)
  rw [List.filter_append] at hfilter
  refine hfilter.trans (List.Perm.of_eq ?_)
  by_cases hfunc : t.mFunc = some func
  · rw [if_pos hfunc]
    congr 1
    exact List.filter_eq_self.mpr fun entry hmem =>
      decide_eq_true ((mFunc_of_mem_again hmem).trans hfunc)
  · have hnone : (((TimerManager.again t.turned).map TimerManager.entryOf).toList.filter
        fun entry => decide (entry.2.mFunc = some func)) = [] := by
      refine List.filter_eq_nil_iff.mpr fun entry hmem => ?_
      rw [mFunc_of_mem_again hmem]
      simpa using hfunc
    rw [if_neg hfunc, own, hentries, List.filter_cons_of_neg (by simpa using hfunc), hnone,
      List.nil_append]

omit [DecidableEq φ] in
/-- A firing moves the timer one period on, and uses up one of its rounds. -/
theorem Entry.fired {fired : ℕ} (hentry : Entry t0 milliseconds repeats fired (t.mTime, t))
    (hrepeat : t.mRepeat ≠ 0) :
    Entry t0 milliseconds repeats (fired + 1) (TimerManager.entryOf t.fired) := by
  have htime : t.mTime = t0 + fired * milliseconds := hentry.time
  have hperiod : t.mPeriod = milliseconds := hentry.period
  refine ⟨rfl, ?_, hperiod, ?_⟩
  · change t.mTime + t.mPeriod = _
    rw [htime, hperiod]
    push_cast
    ring
  · rcases hentry.repeats with ⟨hunlimited, hnegative⟩ | ⟨hnonneg, hsum⟩
    · have hnegative : t.mRepeat < 0 := hnegative
      have hsame : t.fired.mRepeat = t.mRepeat := if_neg (by omega)
      exact .inl ⟨hunlimited, hsame.trans_lt hnegative⟩
    · have hnonneg : 0 ≤ t.mRepeat := hnonneg
      have hsum : t.mRepeat + fired = repeats := hsum
      have hless : t.fired.mRepeat = t.mRepeat - 1 := if_pos (by omega)
      refine .inr ⟨?_, ?_⟩
      · change 0 ≤ t.fired.mRepeat
        omega
      · change t.fired.mRepeat + _ = _
        push_cast
        omega

theorem Tracked.afterTurn (htracked : Tracked func t0 milliseconds repeats s)
    (hentries : s.mTimers.entries = (t.mTime, t) :: others) (hsome : t.mFunc.isSome)
    (hperm : mTimers'.entries.Perm
      (((TimerManager.again t.turned).map TimerManager.entryOf).toList ++ others)) :
    Tracked func t0 milliseconds repeats (s.afterTurn t mTimers') := by
  have harmed : (s.afterTurn t mTimers').manager.Armed :=
    htracked.armed.of_turn hentries hsome hperm
  refine ⟨harmed, htracked.clock, .inr rfl, ?_⟩
  have hown := own_afterTurn_perm func hentries hperm
  rw [firingTimes_afterTurn func s mTimers' hsome]
  by_cases hfunc : t.mFunc = some func
  · obtain ⟨hentry, hrest⟩ := htracked.first hentries hfunc
    rw [if_pos hfunc, hrest, List.append_nil] at hown
    by_cases hrepeat : t.mRepeat = 0
    · rw [Timer.turned, if_pos hrepeat, TimerManager.again, if_pos hrepeat] at hown
      exact .inl (List.perm_nil.mp hown)
    · rw [Timer.turned, if_neg hrepeat, TimerManager.again] at hown
      split at hown
      · exact .inl (List.perm_nil.mp hown)
      · refine .inr ⟨_, List.perm_singleton.mp hown, ?_⟩
        rw [if_pos ⟨hfunc, hrepeat⟩, List.length_append]
        exact hentry.fired hrepeat
  · rw [if_neg hfunc] at hown
    rw [if_neg fun hboth => hfunc hboth.1, List.append_nil,
      eq_of_perm_of_le_one hown htracked.own_le_one]
    exact htracked.own

/-- A step fires the timer on its turn, or does not fire it. -/
theorem Tracked.step (htracked : Tracked func t0 milliseconds repeats s) {a : Action φ}
    (hstep : (system func t0 milliseconds repeats).step s a = some s') :
    Tracked func t0 milliseconds repeats s' ∧
      ((s'.firingTimes func = s.firingTimes func ∧ ¬ TooSoon func t0 s a) ∨
        ∃ t others, a = .turn ∧ s.it = some 0 ∧ s.mTimers.entries = (t.mTime, t) :: others ∧
          t.mFunc = some func ∧ t.mRepeat ≠ 0 ∧ t.mTime ≤ s.clock ∧
          s'.firingTimes func = s.firingTimes func ++ [s.clock] ∧
          Entry t0 milliseconds repeats (s.firingTimes func).length (t.mTime, t)) := by
  cases a with
  | schedule clock milliseconds' repeats' other =>
      simp only [system, Session.step] at hstep
      split at hstep
      case isTrue => cases hstep
      case isFalse hother =>
        split at hstep
        case isTrue hclock =>
          obtain rfl := Option.some.inj hstep
          exact ⟨htracked.schedule hclock.2 _ _ hother, .inl ⟨rfl, fun hsoon => nomatch hsoon.1⟩⟩
        case isFalse => cases hstep
  | update clock =>
      simp only [system, Session.step] at hstep
      split at hstep
      case isTrue hclock =>
        obtain rfl := Option.some.inj hstep
        exact ⟨htracked.update hclock.2, .inl ⟨rfl, fun hsoon => nomatch hsoon.1⟩⟩
      case isFalse => cases hstep
  | turn =>
      simp only [system, Session.step] at hstep
      obtain ⟨it, hit, hturn⟩ := Option.bind_eq_some_iff.mp hstep
      obtain rfl : it = 0 := by
        rcases htracked.it with hnone | hzero
        · rw [hnone] at hit
          cases hit
        · rw [hzero] at hit
          exact (Option.some.inj hit).symm
      rcases turn_cases htracked.armed with ⟨hexit, hlater⟩ |
        ⟨t, others, mTimers', hentries, hdue, hsome, hnext, hperm⟩
      · rw [hexit] at hturn
        obtain rfl := Option.some.inj hturn
        refine ⟨⟨htracked.armed, htracked.clock, .inl rfl, htracked.own⟩, .inl ⟨rfl, ?_⟩⟩
        rintro ⟨-, -, t, others, hentries, -, -, hdue, -⟩
        exact absurd hdue (not_le.mpr (hlater (t.mTime, t) (by simp [hentries])))
      · rw [hnext] at hturn
        obtain rfl := Option.some.inj hturn
        have htimes := firingTimes_afterTurn func s mTimers' hsome
        refine ⟨htracked.afterTurn hentries hsome hperm, ?_⟩
        by_cases hfires : t.mFunc = some func ∧ t.mRepeat ≠ 0
        · rw [if_pos hfires] at htimes
          exact .inr ⟨t, others, rfl, hit, hentries, hfires.1, hfires.2, hdue, htimes,
            (htracked.first hentries hfires.1).1⟩
        · rw [if_neg hfires, List.append_nil] at htimes
          refine .inl ⟨htimes, ?_⟩
          rintro ⟨-, -, t', others', hentries', hfunc, hrepeat, -, -⟩
          rw [hentries, List.cons.injEq, Prod.mk.injEq] at hentries'
          obtain ⟨⟨-, rfl⟩, -⟩ := hentries'
          exact hfires ⟨hfunc, hrepeat⟩

theorem onTime_concat (htimes : s'.firingTimes func = s.firingTimes func ++ [clock]) :
    OnTime func t0 milliseconds s' ↔ OnTime func t0 milliseconds s ∧
      t0 + (s.firingTimes func).length * (1000 * milliseconds) ≤ clock := by
  rw [OnTime, OnTime, htimes]
  constructor
  · intro hall
    refine ⟨fun k time hk => hall k time ?_, hall _ clock (by simp)⟩
    rw [List.getElem?_append_left (List.getElem?_eq_some_iff.mp hk).1]
    exact hk
  · rintro ⟨hall, hlast⟩ k time hk
    rcases Nat.lt_or_ge k (s.firingTimes func).length with hlt | hge
    · rw [List.getElem?_append_left hlt] at hk
      exact hall k time hk
    · rw [List.getElem?_append_right hge, List.getElem?_singleton] at hk
      split at hk
      · obtain rfl := Option.some.inj hk
        obtain rfl : k = (s.firingTimes func).length := by omega
        exact hlast
      · cases hk

/-- A firing is on time when the clock has counted a thousand for each millisecond. -/
theorem late_enough_iff (hentry : Entry t0 milliseconds repeats (s.firingTimes func).length
    (t.mTime, t)) :
    t0 + (s.firingTimes func).length * (1000 * milliseconds) ≤ s.clock ↔
      ¬ s.clock - t0 < 1000 * (t.mTime - t0) := by
  have htime : t.mTime = t0 + (s.firingTimes func).length * milliseconds := hentry.time
  have hscale : ((s.firingTimes func).length : ℤ) * (1000 * milliseconds) =
      1000 * (t.mTime - t0) := by
    rw [htime]
    ring
  rw [hscale, not_lt]
  constructor <;> intro h <;> linarith

end Steps

section Runs

variable [DecidableEq φ] {func : φ} {t0 milliseconds repeats : ℤ} {s : Session φ}

theorem tracked_initial (hinitial : (system func t0 milliseconds repeats).initial s) :
    Tracked func t0 milliseconds repeats s ∧ OnTime func t0 milliseconds s := by
  obtain ⟨before, harmed, hit, hclock, hown, htimes, rfl⟩ := hinitial
  have htimes : (before.schedule t0 milliseconds repeats func).firingTimes func = [] := htimes
  refine ⟨⟨armed_schedule harmed _ _ _ _, le_refl t0, .inl hit, .inr ⟨_,
    own_schedule_self hown _ _ _, ?_⟩⟩, ?_⟩
  · rw [htimes]
    refine ⟨rfl, by simp, rfl, ?_⟩
    rcases lt_or_ge repeats 0 with hnegative | hnonneg
    · exact .inl ⟨hnegative, hnegative⟩
    · exact .inr ⟨hnonneg, by simp⟩
  · rw [OnTime, htimes]
    exact fun k time hk => nomatch hk

/-- No firing is too soon where there is no time to wait for it. -/
theorem Tracked.not_tooSoon (htracked : Tracked func t0 milliseconds repeats s)
    (hinput : milliseconds = 0 ∨ repeats = 0 ∨ repeats = 1) (a : Action φ) :
    ¬ TooSoon func t0 s a := by
  rintro ⟨-, -, t, others, hentries, hfunc, hrepeat, -, hsoon⟩
  have hclock := htracked.clock
  obtain ⟨-, htime, -, hrepeats⟩ := (htracked.first hentries hfunc).1
  simp only at htime hrepeats
  rcases hinput with rfl | hfew
  · rw [mul_zero] at htime
    omega
  · have hnone : (s.firingTimes func).length = 0 := by omega
    rw [hnone, Nat.cast_zero, zero_mul] at htime
    omega

theorem step_turn (hit : s.it = some 0) :
    (system func t0 milliseconds repeats).step s .turn = s.turn 0 := by
  simp only [system, Session.step, hit, Option.bind_some]

omit [DecidableEq φ] in
/-- The turn of the only timer. -/
theorem exists_turn_only {t : Timer φ} (harmed : s.manager.Armed)
    (hentries : s.mTimers.entries = [(t.mTime, t)]) (hdue : t.mTime ≤ s.clock)
    (hrepeat : t.mRepeat ≠ 0) :
    ∃ mTimers', s.turn 0 = some (s.afterTurn t mTimers') ∧
      (s.afterTurn t mTimers').manager.Armed ∧
      (t.fired.mRepeat ≠ 0 → mTimers'.entries = [(t.fired.mTime, t.fired)]) := by
  rcases turn_cases harmed with ⟨-, hlater⟩ |
    ⟨t', others, mTimers', hentries', -, hsome, hnext, hperm⟩
  · exact absurd hdue (not_le.mpr (hlater (t.mTime, t) (by simp [hentries])))
  · rw [hentries, List.cons.injEq, Prod.mk.injEq] at hentries'
    obtain ⟨⟨-, rfl⟩, rfl⟩ := hentries'
    have harmed' : (s.afterTurn t mTimers').manager.Armed :=
      harmed.of_turn hentries hsome hperm
    refine ⟨mTimers', hnext, harmed', fun hagain => ?_⟩
    rw [Timer.turned, if_neg hrepeat, TimerManager.again, if_neg hagain, List.append_nil] at hperm
    exact List.perm_singleton.mp hperm

/-- With two rounds or more, one update can make the first two firings. -/
theorem exists_run_too_soon (func : φ) (t0 : ℤ) (hms : 1 ≤ milliseconds) (hzero : repeats ≠ 0) (hone : repeats ≠ 1) :
    ∃ visited s, (system func t0 milliseconds repeats).Run visited s ∧
      ¬ OnTime func t0 milliseconds s := by
  let empty : Session φ := ⟨t0, Multimap.empty, none, []⟩
  let t : Timer φ := ⟨t0, some func, milliseconds, repeats⟩
  let scheduled := empty.schedule t0 milliseconds repeats func
  let updating := scheduled.update (t0 + milliseconds)
  have hempty : empty.manager.Armed := fun _ hmem => nomatch hmem
  have hstart : (system func t0 milliseconds repeats).Run [] scheduled :=
    .initial ⟨empty, hempty, rfl, le_refl t0, rfl, rfl, rfl⟩
  have hupdate : (system func t0 milliseconds repeats).step scheduled
      (.update (t0 + milliseconds)) = some updating :=
    if_pos ⟨rfl, show t0 ≤ t0 + milliseconds by omega⟩
  have hrun := hstart.step hupdate
  have harmed : updating.manager.Armed := armed_schedule hempty _ _ _ _
  have hagain : t.fired.mRepeat ≠ 0 := by
    change (if repeats > 0 then repeats - 1 else repeats) ≠ 0
    split <;> omega
  -- the first turn fires the timer and puts it back one period later, where it is due again
  obtain ⟨mTimers₁, hfirst, harmed₁, hentries₁⟩ :=
    exists_turn_only (t := t) harmed rfl (show t0 ≤ t0 + milliseconds by omega) hzero
  obtain ⟨mTimers₂, hsecond, -, -⟩ :=
    exists_turn_only harmed₁ (hentries₁ hagain) (le_refl (t0 + milliseconds)) hagain
  have hrun₁ := hrun.step ((step_turn rfl).trans hfirst)
  have hrun₂ := hrun₁.step ((step_turn rfl).trans hsecond)
  refine ⟨_, _, hrun₂, fun honTime => ?_⟩
  have htimes₁ := firingTimes_afterTurn func updating mTimers₁ (t := t) rfl
  have htimes₂ := firingTimes_afterTurn func (updating.afterTurn t mTimers₁) mTimers₂
    (t := t.fired) rfl
  rw [if_pos ⟨rfl, hzero⟩] at htimes₁
  rw [if_pos ⟨rfl, hagain⟩] at htimes₂
  have hlate := ((onTime_concat htimes₂).mp honTime).2
  have hnone : updating.firingTimes func = [] := rfl
  have hclock : (updating.afterTurn t mTimers₁).clock = t0 + milliseconds := rfl
  rw [htimes₁, hnone, hclock] at hlate
  simp only [List.nil_append, List.length_singleton, Nat.cast_one, one_mul] at hlate
  omega

/-- A run is on time exactly when no turn of it fires the timer too soon; all runs are
exactly when the period is zero or the timer fires at most once. -/
theorem onTime_iff (func : φ) (t0 repeats : ℤ) (hms : 0 ≤ milliseconds) :
    (∀ visited s, (system func t0 milliseconds repeats).Run visited s →
      (((∀ before ∈ visited, OnTime func t0 milliseconds before.1) ∧
          OnTime func t0 milliseconds s) ↔
        ∀ taken ∈ visited, ¬ TooSoon func t0 taken.1 taken.2)) ∧
    ((∀ visited s, (system func t0 milliseconds repeats).Run visited s →
        OnTime func t0 milliseconds s) ↔
      milliseconds = 0 ∨ repeats = 0 ∨ repeats = 1) := by
  have hiff : ∀ visited s, (system func t0 milliseconds repeats).Run visited s →
      (((∀ before ∈ visited, OnTime func t0 milliseconds before.1) ∧
          OnTime func t0 milliseconds s) ↔
        ∀ taken ∈ visited, ¬ TooSoon func t0 taken.1 taken.2) := by
    intro visited s hrun
    apply hrun.forall_iff (Q := fun s => Tracked func t0 milliseconds repeats s ∧
      OnTime func t0 milliseconds s)
    · exact fun s hs => hs.2
    · exact fun s hinitial => tracked_initial hinitial
    · rintro s a s' ⟨htracked, honTime⟩ hstep hsoon
      obtain ⟨htracked', ⟨hsame, -⟩ |
        ⟨t, others, rfl, hit, hentries, hfunc, hrepeat, hdue, htimes, hentry⟩⟩ :=
          htracked.step hstep
      · refine ⟨htracked', ?_⟩
        rw [OnTime, hsame]
        exact honTime
      · refine ⟨htracked', (onTime_concat htimes).mpr ⟨honTime, (late_enough_iff hentry).mpr ?_⟩⟩
        exact fun hlt => hsoon ⟨rfl, hit, t, others, hentries, hfunc, hrepeat, hdue, hlt⟩
    · rintro s a s' ⟨htracked, -⟩ hstep hsoon honTime'
      obtain ⟨-, ⟨-, hnot⟩ | ⟨t, others, rfl, -, hentries, -, -, -, htimes, hentry⟩⟩ :=
        htracked.step hstep
      · exact hnot hsoon
      · obtain ⟨-, -, t', others', hentries', -, -, -, hlt⟩ := hsoon
        rw [hentries, List.cons.injEq, Prod.mk.injEq] at hentries'
        obtain ⟨⟨-, rfl⟩, -⟩ := hentries'
        exact (late_enough_iff hentry).mp ((onTime_concat htimes).mp honTime').2 hlt
  refine ⟨hiff, fun hall => ?_, fun hinput visited s hrun => ?_⟩
  · by_contra hinput
    rw [not_or, not_or] at hinput
    obtain ⟨visited, s, hrun, hlate⟩ := exists_run_too_soon func t0
      (show 1 ≤ milliseconds by omega) hinput.2.1 hinput.2.2
    exact hlate (hall visited s hrun)
  · refine ((hiff visited s hrun).mpr fun taken hmem => ?_).2
    have htracked : Tracked func t0 milliseconds repeats taken.1 :=
      (hrun.reachable_of_mem hmem).invariant (fun s hinitial => (tracked_initial hinitial).1)
        fun s a s' hs hstep => (hs.step hstep).1
    exact htracked.not_tooSoon hinput taken.2

/-- `schedule(5, 1, f)` at clock 0 and an update seven microseconds later. -/
theorem onTime_once : ∃ visited s, (system 'a' 0 5 1).Run visited s ∧
    s.firingTimes 'a' = [7] ∧ OnTime 'a' 0 5 s := by
  have hms : (0 : ℤ) ≤ 5 := by decide
  have hstart : (system 'a' 0 5 1).Run [] _ :=
    .initial ⟨⟨0, Multimap.empty, none, []⟩, fun _ h => (nomatch h), rfl, le_refl _, rfl, rfl, rfl⟩
  have hupdated := hstart.step (a := .update 7) rfl
  have hrun := hupdated.step (a := .turn) rfl
  exact ⟨_, _, hrun, rfl, (onTime_iff 'a' 0 1 hms).2.mpr (.inr (.inr rfl)) _ _ hrun⟩

/-- `schedule(1, -1, f)` at clock 0 and an update one microsecond later. -/
theorem onTime_fails :
    ∃ s : Session Char,
      (system 'a' 0 1 (-1)).execute
        ((⟨0, Multimap.empty, none, []⟩ : Session Char).schedule 0 1 (-1) 'a')
        [.update 1, .turn, .turn] = some s ∧
      s.firingTimes 'a' = [1, 1] ∧ ¬ OnTime 'a' 0 1 s := by
  refine ⟨_, rfl, rfl, fun honTime => ?_⟩
  have hlate := honTime 1 1 rfl
  norm_num at hlate

end Runs

end Session

end CppProjects
