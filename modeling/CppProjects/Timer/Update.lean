import CppProjects.Timer.DueTimers

/-!
# Updates fire the due work

The iterator of `update` stays at the first entry, so the timers fire in the order of
their times.  Every turn makes one due firing or drops a timer without rounds, and the
number of due times that are left goes down.
-/

namespace CppProjects

open Program

namespace TimerManager

variable {φ : Type} {now first : ℤ} {t : Timer φ} {s s' : TimerManager φ}

/-- What a turn makes of a due timer: the calls, and the timer it inserts again. -/
structure TurnOf (now : ℤ) (t : Timer φ) (calls : List (φ × ℤ)) (next : Option (Timer φ)) :
    Prop where
  firings_eq : t.firings now = calls ++ next.toList.flatMap (Timer.firings now)
  remaining_eq : t.remaining now = next.bind (Timer.remaining now)
  calls_time : ∀ made ∈ calls, made.2 = t.mTime
  calls_length : calls.length ≤ 1
  next_ready : ∀ t' ∈ next, t'.Ready ∧ t.mTime ≤ t'.mTime ∧ t'.dueCount now < t.dueCount now

/-- The timer that is inserted again. -/
def again (t : Timer φ) : Option (Timer φ) := if t.mRepeat = 0 then none else some t

theorem turnOf_zero (hle : t.mTime ≤ now) (hrepeat : t.mRepeat = 0) : TurnOf now t [] (again t) := by
  rw [again, if_pos hrepeat]
  exact ⟨Timer.firings_of_zero hrepeat, Timer.remaining_of_zero hle hrepeat,
    fun _ hmem => (nomatch hmem), Nat.zero_le _, fun _ hmem => (nomatch hmem)⟩

theorem turnOf_fired (hready : t.Ready) (hle : t.mTime ≤ now) (hrepeat : t.mRepeat ≠ 0) {func : φ}
    (hfunc : t.mFunc = some func) : TurnOf now t [(func, t.mTime)] (again t.fired) := by
  have hfirings := Timer.firings_of_le hready hle hrepeat hfunc
  have htime : ∀ made ∈ [(func, t.mTime)], made.2 = t.mTime := by
    intro made hmem
    rw [List.mem_singleton.mp hmem]
  rw [again]
  split_ifs with hlast
  · rw [Timer.firings_of_zero hlast] at hfirings
    exact ⟨hfirings, Timer.remaining_of_last hready hle hrepeat hlast, htime, Nat.le_refl 1,
      fun _ hmem => (nomatch hmem)⟩
  · refine ⟨?_, Timer.remaining_of_le hready hle hrepeat hlast, htime, Nat.le_refl 1, ?_⟩
    · rw [hfirings]
      simp
    · intro t' hmem
      obtain rfl := Option.some.inj hmem
      refine ⟨hready.fired, ?_, ?_⟩
      · exact le_add_of_nonneg_right (zero_le_one.trans hready.mPeriod_pos)
      · rw [Timer.dueCount_of_le hready hle]
        exact Nat.lt_succ_self _

theorem onTimer_returns (hready : t.Ready) (hle : t.mTime ≤ now) (s : TimerManager φ) :
    ∃ calls t', Returns (onTimer t) s t' { s with calls := s.calls ++ calls } ∧
      TurnOf now t calls (again t') := by
  obtain ⟨func, hfunc⟩ := Option.isSome_iff_exists.mp hready.mFunc_isSome
  obtain ⟨mTime, mFunc, mPeriod, mRepeat⟩ := t
  obtain rfl : mFunc = some func := hfunc
  rw [onTimer]
  by_cases hrepeat : mRepeat = 0
  · refine ⟨[], _, ?_, turnOf_zero hle hrepeat⟩
    simp only [if_pos hrepeat, List.append_nil]
    exact returns_pure _ s
  · refine ⟨[(func, mTime)], _, ?_, turnOf_fired hready hle hrepeat rfl⟩
    simp only [if_neg hrepeat]
    exact (returns_modify _ s).bind (returns_pure _ _)

/-- The number of due times of all the timers. -/
def work (now : ℤ) (s : TimerManager φ) : ℕ :=
  (s.mTimers.entries.map fun entry => entry.2.dueCount now).sum

/-- Every timer stands under its time and can be updated. -/
def Ready (s : TimerManager φ) : Prop :=
  ∀ entry ∈ s.mTimers.entries, entry.1 = entry.2.mTime ∧ entry.2.Ready

/-- A new timer with a positive period joins the others. -/
theorem Ready.schedule (hready : s.Ready) (now : ℤ) {milliseconds : ℤ} (hperiod : 1 ≤ milliseconds)
    (repeats : ℤ) (func : φ) : (s.schedule now milliseconds repeats func).Ready := by
  intro entry hmem
  rcases Multimap.mem_insert.mp hmem with rfl | hmem
  · exact ⟨rfl, rfl, hperiod⟩
  · exact hready entry hmem

theorem ready_empty : (⟨Multimap.empty, []⟩ : TimerManager φ).Ready :=
  fun _ hmem => (nomatch hmem)

/-- Inside `update`: the firings in `due` are made or to be made, and what stays is
`rest`. -/
structure Updating (now : ℤ) (due : List (φ × ℤ)) (rest : List (Timer φ)) (it : ℕ)
    (s : TimerManager φ) : Prop where
  it_eq : it = 0
  ready : s.Ready
  ordered : s.calls.Pairwise fun earlier later => earlier.2 ≤ later.2
  calls_le : ∀ made ∈ s.calls, ∀ entry ∈ s.mTimers.entries, made.2 ≤ entry.1
  due_perm : (s.calls ++ s.mTimers.entries.flatMap fun entry => entry.2.firings now).Perm due
  rest_perm : (s.mTimers.entries.filterMap fun entry => entry.2.remaining now).Perm rest

variable {due : List (φ × ℤ)} {rest : List (Timer φ)} {it : ℕ} {others : List (ℤ × Timer φ)}

/-- The timers are not due any more. -/
theorem Updating.exit (hupdating : Updating now due rest it s)
    (hlater : ∀ entry ∈ s.mTimers.entries, now < entry.1) :
    s.calls.Perm due ∧ (s.mTimers.entries.map Prod.snd).Perm rest := by
  have hlt : ∀ entry ∈ s.mTimers.entries, entry.2.Ready ∧ now < entry.2.mTime := fun entry hmem =>
    ⟨(hupdating.ready entry hmem).2, (hupdating.ready entry hmem).1 ▸ hlater entry hmem⟩
  have hnone : (s.mTimers.entries.flatMap fun entry => entry.2.firings now) = [] := by
    apply List.flatMap_eq_nil_iff.mpr
    exact fun entry hmem => Timer.firings_of_lt (hlt entry hmem).1 (hlt entry hmem).2
  have hall : (s.mTimers.entries.filterMap fun entry => entry.2.remaining now) =
      s.mTimers.entries.map Prod.snd := by
    rw [← List.filterMap_eq_map]
    apply List.filterMap_congr
    exact fun entry hmem => Timer.remaining_of_lt (hlt entry hmem).2
  have hdue := hupdating.due_perm
  have hrest := hupdating.rest_perm
  rw [hnone, List.append_nil] at hdue
  rw [hall] at hrest
  exact ⟨hdue, hrest⟩

/-- The entry of a timer that is inserted again. -/
def entryOf (t : Timer φ) : ℤ × Timer φ := (t.mTime, t)

/-- The first timer makes its turn, and its place is taken by what is left of it. -/
theorem Updating.step (hupdating : Updating now due rest it s) {calls : List (φ × ℤ)}
    {next : Option (Timer φ)} (hentries : s.mTimers.entries = (first, t) :: others)
    (hturn : TurnOf now t calls next) (hcalls : s'.calls = s.calls ++ calls)
    (hperm : s'.mTimers.entries.Perm ((next.map entryOf).toList ++ others)) :
    Updating now due rest 0 s' := by
  have hsorted := s.mTimers.sorted
  have hready := hupdating.ready
  have hdue := hupdating.due_perm
  have hrest := hupdating.rest_perm
  have hle := hupdating.calls_le
  rw [hentries] at hsorted hdue hrest
  obtain ⟨hfirst, -⟩ := List.pairwise_cons.mp hsorted
  have htime : first = t.mTime := (hready (first, t) (by simp [hentries])).1
  have hmem : ∀ entry ∈ s'.mTimers.entries,
      (entry.1 = entry.2.mTime ∧ entry.2.Ready) ∧ first ≤ entry.1 := by
    intro entry hentry
    rcases List.mem_append.mp (hperm.mem_iff.mp hentry) with hnext | hother
    · obtain ⟨t', hsome, rfl⟩ := Option.map_eq_some_iff.mp (Option.mem_toList.mp hnext)
      obtain ⟨hready', hlater, -⟩ := hturn.next_ready t' hsome
      exact ⟨⟨rfl, hready'⟩, htime.trans_le hlater⟩
    · exact ⟨hready entry (by simp [hentries, hother]), hfirst entry hother⟩
  have hmade : ∀ made ∈ s.calls, made.2 ≤ first := fun made hcall =>
    hle made hcall (first, t) (by simp [hentries])
  refine ⟨rfl, fun entry hentry => (hmem entry hentry).1, ?_, ?_, ?_, ?_⟩
  · rw [hcalls]
    refine List.pairwise_append.mpr ⟨hupdating.ordered, ?_, ?_⟩
    · match calls, hturn.calls_length with
      | [], _ => exact List.Pairwise.nil
      | [made], _ => exact List.pairwise_singleton _ made
    · intro earlier hearlier later hlater
      rw [hturn.calls_time later hlater, ← htime]
      exact hmade earlier hearlier
  · intro made hcall entry hentry
    apply le_trans ?_ (hmem entry hentry).2
    rw [hcalls] at hcall
    rcases List.mem_append.mp hcall with hearlier | hnew
    · exact hmade made hearlier
    · exact ((hturn.calls_time made hnew).trans htime.symm).le
  · rw [List.flatMap_cons, hturn.firings_eq] at hdue
    refine List.Perm.trans ?_ hdue
    rw [hcalls, List.append_assoc, List.append_assoc]
    refine List.Perm.append_left _ (List.Perm.append_left _ ?_)
    refine (hperm.flatMap_right _).trans ?_
    rw [List.flatMap_append]
    cases next <;> simp [entryOf]
  · refine List.Perm.trans ?_ hrest
    refine (hperm.filterMap _).trans ?_
    rw [List.filterMap_append, List.filterMap_cons, hturn.remaining_eq]
    cases next with
    | none => simp
    | some t' =>
        cases hremaining : t'.remaining now <;> simp [entryOf, hremaining]

/-- A turn lowers the number of due times. -/
theorem Updating.work_lt (hupdating : Updating now due rest it s) {calls : List (φ × ℤ)}
    {next : Option (Timer φ)} (hentries : s.mTimers.entries = (first, t) :: others)
    (hle : t.mTime ≤ now) (hturn : TurnOf now t calls next)
    (hperm : s'.mTimers.entries.Perm ((next.map entryOf).toList ++ others)) :
    s'.work now < s.work now := by
  have hready := (hupdating.ready (first, t) (by simp [hentries])).2
  have hsum : s'.work now = (((next.map entryOf).toList ++ others).map
      fun entry => entry.2.dueCount now).sum := (hperm.map _).sum_eq
  rw [hsum, work, hentries, List.map_append, List.sum_append, List.map_cons, List.sum_cons]
  apply Nat.add_lt_add_right
  cases next with
  | none =>
      rw [Timer.dueCount_of_le hready hle]
      exact Nat.succ_pos _
  | some t' => simpa [entryOf] using (hturn.next_ready t' rfl).2.2

/-! ## One turn -/

/-- The loop returns where the first timer is not due. -/
theorem turn_exit (hlater : ∀ entry, s.mTimers.entries.head? = some entry → now < entry.1) :
    Returns (turn now 0) s none s := by
  rw [turn]
  apply (returns_get s).bind
  cases hentries : s.mTimers.entries with
  | nil => exact returns_pure none s
  | cons entry others =>
      have hlt : now < entry.1 := hlater entry (by rw [hentries]; rfl)
      dsimp only [List.getElem?_cons_zero]
      rw [if_pos hlt]
      exact returns_pure none s

/-- Wherever the timer is inserted, the iterator ends at the first entry. -/
theorem rearm_returns (hentries : s.mTimers.entries = (first, t) :: others) (t' : Timer φ) :
    ∃ s', Returns (rearm 0 t') s 0 s' ∧ s'.calls = s.calls ∧
      s'.mTimers.entries.Perm (((again t').map entryOf).toList ++ others) := by
  have herased : (erase 0 s).mTimers.entries = others := by
    change s.mTimers.entries.eraseIdx 0 = others
    rw [hentries]
    rfl
  rw [rearm]
  by_cases hlast : t'.mRepeat = 0
  · have hagain : again t' = none := if_pos hlast
    rw [hagain]
    refine ⟨erase 0 s, ?_, rfl, List.Perm.of_eq herased⟩
    apply (returns_modify _ _).bind
    rw [if_pos hlast]
    exact returns_pure _ _
  · have hagain : again t' = some t' := if_neg hlast
    rw [hagain]
    refine ⟨insert t' (erase 0 s), ?_, rfl, ?_⟩
    · apply (returns_modify _ _).bind
      rw [if_neg hlast]
      apply (returns_get _).bind
      apply (returns_modify _ _).bind
      dsimp only
      rw [herased]
      cases others with
      | nil =>
          have hfirst : ((erase 0 s).mTimers.insert t'.mTime t').2 = 0 :=
            Multimap.insert_snd_of_lt (by rw [herased]; exact fun _ hmem => (nomatch hmem))
          dsimp only [List.getElem?_nil]
          rw [hfirst]
          exact returns_pure 0 _
      | cons entry others =>
          dsimp only [List.getElem?_cons_zero]
          split_ifs with hlt hbefore
          · have hfirst : ((erase 0 s).mTimers.insert t'.mTime t').2 = 0 := by
              apply Multimap.insert_snd_of_lt
              intro head hhead
              rw [herased] at hhead
              obtain rfl := Option.some.inj hhead
              exact hlt
            rw [hfirst]
            exact returns_pure 0 _
          · have hbehind : 0 < ((erase 0 s).mTimers.insert t'.mTime t').2 :=
              Multimap.insert_snd_pos (by rw [herased]; rfl) (not_lt.mp hlt)
            exact absurd hbefore hbehind.not_ge
          · exact returns_pure 0 _
    · have hperm := Multimap.entries_insert_perm (erase 0 s).mTimers t'.mTime t'
      rw [herased] at hperm
      exact hperm

theorem Updating.turn (hupdating : Updating now due rest it s) :
    (Returns (turn now it) s none s ∧ ∀ entry ∈ s.mTimers.entries, now < entry.1) ∨
      ∃ it' s', Returns (TimerManager.turn now it) s (some it') s' ∧
        Updating now due rest it' s' ∧ s'.work now < s.work now := by
  obtain rfl := hupdating.it_eq
  cases hentries : s.mTimers.entries with
  | nil =>
      refine Or.inl ⟨turn_exit ?_, fun _ hmem => (nomatch hmem)⟩
      rw [hentries]
      exact fun _ hmem => (nomatch hmem)
  | cons entry others =>
      obtain ⟨first, t⟩ := entry
      obtain ⟨htime, hready⟩ := hupdating.ready (first, t) (by simp [hentries])
      by_cases hlt : now < first
      · refine Or.inl ⟨turn_exit ?_, ?_⟩
        · rw [hentries]
          intro entry hentry
          obtain rfl := Option.some.inj hentry
          exact hlt
        · have hsorted := s.mTimers.sorted
          rw [hentries] at hsorted
          intro entry hmem
          rcases List.mem_cons.mp hmem with rfl | hmem
          · exact hlt
          · exact hlt.trans_le ((List.pairwise_cons.mp hsorted).1 entry hmem)
      · have hle : t.mTime ≤ now := htime ▸ not_lt.mp hlt
        obtain ⟨calls, t', honTimer, hturn⟩ := onTimer_returns hready hle s
        obtain ⟨s', hrearm, hcalls, hperm⟩ :=
          rearm_returns (s := { s with calls := s.calls ++ calls }) hentries t'
        refine Or.inr ⟨0, s', ?_, hupdating.step hentries hturn hcalls hperm,
          hupdating.work_lt hentries hle hturn hperm⟩
        rw [TimerManager.turn]
        apply (returns_get s).bind
        rw [hentries]
        dsimp only [List.getElem?_cons_zero]
        rw [if_neg hlt]
        exact honTimer.bind (hrearm.bind (returns_pure _ s'))

theorem Updating.loop (hupdating : Updating now due rest it s) {fuel : ℕ}
    (hfuel : s.work now < fuel) :
    ∃ it' s', Returns (Program.loop (TimerManager.turn now) fuel it) s it' s' ∧
      Updating now due rest it' s' ∧ ∀ entry ∈ s'.mTimers.entries, now < entry.1 := by
  refine exists_loop_of_lt (fun _ => work now) (fun it s hinside => ?_) hfuel hupdating
  exact hinside.turn.imp (fun hexit => ⟨s, hexit.1, hinside, hexit.2⟩) id

/-- An update ends, makes every due firing once and in the order of their times, and
leaves what is not due. -/
theorem update_fires_due (timers : Multimap ℤ (Timer φ)) (now : ℤ)
    (hready : (⟨timers, []⟩ : TimerManager φ).Ready) :
    ∃ bound, ∀ fuel, bound ≤ fuel → ∃ s', Returns (update fuel now) ⟨timers, []⟩ () s' ∧
      s'.calls.Perm (timers.entries.flatMap fun entry => entry.2.firings now) ∧
      s'.calls.Pairwise (fun earlier later => earlier.2 ≤ later.2) ∧
      (s'.mTimers.entries.map Prod.snd).Perm
        (timers.entries.filterMap fun entry => entry.2.remaining now) ∧
      ∀ entry ∈ s'.mTimers.entries, now < entry.1 ∧ entry.1 = entry.2.mTime := by
  refine ⟨work now ⟨timers, []⟩ + 1, fun fuel hfuel => ?_⟩
  have hstart : Updating now (timers.entries.flatMap fun entry => entry.2.firings now)
      (timers.entries.filterMap fun entry => entry.2.remaining now) 0 ⟨timers, []⟩ :=
    ⟨rfl, hready, List.Pairwise.nil, fun _ hmem => (nomatch hmem), List.Perm.refl _, List.Perm.refl _⟩
  rw [update]
  by_cases hempty : timers.entries.length = 0
  · have hnil : timers.entries = [] := List.length_eq_zero_iff.mp hempty
    refine ⟨⟨timers, []⟩, ?_, ?_⟩
    · apply (returns_get _).bind
      rw [if_pos hempty]
      exact returns_pure () _
    · have hnone : ∀ entry ∈ timers.entries, now < entry.1 := by
        rw [hnil]
        exact fun _ hmem => (nomatch hmem)
      obtain ⟨hdue, hrest⟩ := hstart.exit hnone
      exact ⟨hdue, List.Pairwise.nil, hrest,
        fun entry hmem => ⟨hnone entry hmem, (hready entry hmem).1⟩⟩
  · obtain ⟨it, s', hloop, hupdating, hlater⟩ := hstart.loop hfuel
    obtain ⟨hdue, hrest⟩ := hupdating.exit hlater
    refine ⟨s', ?_, hdue, hupdating.ordered, hrest,
      fun entry hmem => ⟨hlater entry hmem, (hupdating.ready entry hmem).1⟩⟩
    apply (returns_get _).bind
    rw [if_neg hempty]
    exact hloop.bind (returns_pure () _)

/-- A timer every two ticks without a limit, and one every three ticks that fires twice. -/
theorem update_fires_due_two :
    ∃ bound, ∀ fuel, bound ≤ fuel → ∃ s' : TimerManager Char,
      Returns (update fuel 5)
        (((⟨Multimap.empty, []⟩ : TimerManager Char).schedule 1 3 2 'b').schedule 0 2 (-1) 'a')
        () s' ∧
      s'.calls.Perm [('a', 0), ('a', 2), ('a', 4), ('b', 1), ('b', 4)] ∧
      s'.mTimers.entries.map Prod.snd = [⟨6, some 'a', 2, -1⟩] := by
  have hthree : (1 : ℤ) ≤ 3 := by decide
  have htwo : (1 : ℤ) ≤ 2 := by decide
  have hready := (ready_empty.schedule 1 hthree 2 'b').schedule 0 htwo (-1) 'a'
  obtain ⟨bound, hupdate⟩ := update_fires_due _ 5 hready
  refine ⟨bound, fun fuel hfuel => ?_⟩
  obtain ⟨s', hreturns, hcalls, -, hrest, -⟩ := hupdate fuel hfuel
  exact ⟨s', hreturns, hcalls, List.perm_singleton.mp hrest⟩

end TimerManager

end CppProjects
