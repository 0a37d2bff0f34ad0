import CppProjects.ThreadPool.CPoolWakeup

/-!
# The thread counts of the C pool

`liveNum`, `exitNum` and `busyNum` are each changed in the region that decides on
the change, so stale values of the manager do no harm: it looks at `liveNum` again
before it starts a thread, and a worker does before it leaves.
-/

namespace CppProjects

namespace CPool

/-- The worker is behind its increment of `busyNum` and before its decrement. -/
def WorkerPc.busy : WorkerPc → Bool
  | .running _ | .ending => true
  | .loop | .waiting | .woken | .starting _ | .leaving | .exited => false

namespace State

variable {s s' : State} {wake : Option ℕ} {i : ℕ} {pc pc' : WorkerPc}

/-- What the counts are kept to. -/
structure Counted (s : State) : Prop where
  liveNum_le : s.liveNum ≤ s.maxNum
  exitNum_nonneg : 0 ≤ s.exitNum
  exitNum_le : s.exitNum ≤ NUMBER
  busyNum_eq : s.busyNum = s.workers.countP WorkerPc.busy

/-- The bounds stay as they are and the counts are kept to them. -/
structure CountStep (s s' : State) : Prop where
  minNum_eq : s'.minNum = s.minNum
  maxNum_eq : s'.maxNum = s.maxNum
  counted : s'.Counted

theorem Counted.same (hcounted : s.Counted) : s.CountStep s := ⟨rfl, rfl, hcounted⟩

theorem Counted.setWorker (hcounted : s.Counted) (hget : s.workers[i]? = some pc)
    (pc' : WorkerPc) (hbusy : pc'.busy = pc.busy) : s.CountStep (s.setWorker i pc') where
  minNum_eq := rfl
  maxNum_eq := rfl
  counted := by
    have hcount := countP_set_of_getElem? WorkerPc.busy hget pc'
    rw [hbusy] at hcount
    refine ⟨hcounted.liveNum_le, hcounted.exitNum_nonneg, hcounted.exitNum_le, ?_⟩
    exact hcounted.busyNum_eq.trans (congrArg Nat.cast (Nat.add_right_cancel hcount).symm)

theorem countStep_signalNotEmpty (hsignal : s.signalNotEmpty wake = some s')
    (hcounted : s.Counted) : s.CountStep s' := by
  rcases signalNotEmpty_cases hsignal with ⟨-, rfl⟩ | ⟨i, hget, rfl⟩
  · exact hcounted.same
  · exact hcounted.setWorker hget _ rfl

theorem countStep_signalNotFull (hsignal : s.signalNotFull wake = some s')
    (hcounted : s.Counted) : s.CountStep s' := by
  rcases signalNotFull_cases hsignal with rfl | ⟨p, task, -, rfl⟩
  · exact hcounted.same
  · exact ⟨rfl, rfl, hcounted.1, hcounted.2, hcounted.3, hcounted.4⟩

theorem Counted.workerRegion (hcounted : s.Counted) (hget : s.workers[i]? = some pc)
    (hidle : pc.busy = false) (hstep : s.workerRegion i wake = some s') : s.CountStep s' := by
  rw [State.workerRegion] at hstep
  split_ifs at hstep
  · obtain rfl := Option.some.inj hstep
    exact hcounted.setWorker hget _ hidle.symm
  · obtain rfl := Option.some.inj hstep
    exact hcounted.setWorker hget _ hidle.symm
  · have hstarting : (s.setWorker i (.starting (s.taskQ s.queueFront))).Counted :=
      (hcounted.setWorker hget (.starting _) hidle.symm).counted
    obtain ⟨hmin, hmax, hcounted'⟩ :=
      countStep_signalNotFull hstep ⟨hstarting.1, hstarting.2, hstarting.3, hstarting.4⟩
    exact ⟨hmin, hmax, hcounted'⟩

theorem Counted.worker (hcounted : s.Counted) (hstep : s.worker i wake = some s') :
    s.CountStep s' := by
  rw [State.worker] at hstep
  split at hstep
  next hget => exact hcounted.workerRegion hget rfl hstep
  next hget =>
    rw [workerWoken] at hstep
    split_ifs at hstep with hexit hmin
    · obtain rfl := Option.some.inj hstep
      have hleaving : (s.setWorker i .leaving).Counted :=
        (hcounted.setWorker hget .leaving rfl).counted
      refine ⟨rfl, rfl, ?_, ?_, ?_, hleaving.busyNum_eq⟩
      · exact (sub_le_self _ (by decide)).trans hcounted.liveNum_le
      · exact Int.le_sub_one_of_lt hexit
      · exact (sub_le_self _ (by decide)).trans hcounted.exitNum_le
    · have hused : ({ s with exitNum := s.exitNum - 1 } : State).Counted :=
        ⟨hcounted.liveNum_le, Int.le_sub_one_of_lt hexit,
          (sub_le_self _ (by decide)).trans hcounted.exitNum_le, hcounted.busyNum_eq⟩
      obtain ⟨hmin', hmax', hcounted'⟩ := hused.workerRegion hget rfl hstep
      exact ⟨hmin', hmax', hcounted'⟩
    · exact hcounted.workerRegion hget rfl hstep
  next task hget =>
    obtain rfl := Option.some.inj hstep
    have hcount := countP_set_of_getElem? WorkerPc.busy hget (.running task)
    refine ⟨rfl, rfl, hcounted.1, hcounted.2, hcounted.3, ?_⟩
    change s.busyNum + 1 = ((s.workers.set i (.running task)).countP WorkerPc.busy : ℕ)
    rw [hcounted.busyNum_eq]
    exact_mod_cast hcount.symm
  next task hget =>
    obtain rfl := Option.some.inj hstep
    exact hcounted.setWorker hget _ rfl
  next hget =>
    obtain rfl := Option.some.inj hstep
    have hcount := countP_set_of_getElem? WorkerPc.busy hget .loop
    refine ⟨rfl, rfl, hcounted.1, hcounted.2, hcounted.3, ?_⟩
    change s.busyNum - 1 = ((s.workers.set i .loop).countP WorkerPc.busy : ℕ)
    rw [hcounted.busyNum_eq, sub_eq_iff_eq_add]
    exact_mod_cast hcount.symm
  next hget =>
    obtain rfl := Option.some.inj hstep
    have hexited : (s.setWorker i .exited).Counted := (hcounted.setWorker hget .exited rfl).counted
    rw [threadDestroy]
    split
    · exact ⟨rfl, rfl, hexited.1, hexited.2, hexited.3, hexited.4⟩
    · exact ⟨rfl, rfl, hexited⟩
  all_goals cases hstep

/-- Growth stops at `maxNum`. -/
theorem growLoop_liveNum_le (hle : s.liveNum ≤ s.maxNum) (counter : ℤ) (slot slots : ℕ) :
    (s.growLoop counter slot slots).liveNum ≤ s.maxNum := by
  induction slots generalizing s counter slot with
  | zero => exact hle
  | succ slots ih =>
      rw [growLoop]
      split_ifs with hgo hfree
      · exact ih (s := { s.createWorker slot with liveNum := s.liveNum + 1 }) hgo.2 _ _
      · exact ih hle _ _
      · exact hle

theorem Counted.managerStep (hcounted : s.Counted) (hstep : s.managerStep wake = some s') :
    s.CountStep s' := by
  have hmanager : ∀ pc : ManagerPc, s.CountStep { s with manager := pc } := fun pc =>
    ⟨rfl, rfl, hcounted.1, hcounted.2, hcounted.3, hcounted.4⟩
  rw [State.managerStep] at hstep
  split at hstep
  · obtain rfl := Option.some.inj hstep
    exact hmanager _
  · obtain rfl := Option.some.inj hstep
    exact hmanager _
  · obtain rfl := Option.some.inj hstep
    exact hmanager _
  · obtain rfl := Option.some.inj hstep
    split_ifs
    · have hle := growLoop_liveNum_le hcounted.liveNum_le 0 0 s.maxNum.toNat
      obtain ⟨started, table, hgrown⟩ := growLoop_cases s 0 0 s.maxNum.toNat
      rw [hgrown] at hle ⊢
      refine ⟨rfl, rfl, hle, hcounted.2, hcounted.3, hcounted.4.trans ?_⟩
      simp [List.countP_append, List.countP_replicate, WorkerPc.busy]
    · exact hmanager _
  · split_ifs at hstep
    · obtain rfl := Option.some.inj hstep
      exact ⟨rfl, rfl, hcounted.1, Int.zero_le_ofNat 2, le_rfl, hcounted.4⟩
    · obtain rfl := Option.some.inj hstep
      exact hmanager _
  · split_ifs at hstep
    · obtain ⟨hmin, hmax, hcounted'⟩ := countStep_signalNotEmpty hstep (hmanager _).counted
      exact ⟨hmin, hmax, hcounted'⟩
    · obtain rfl := Option.some.inj hstep
      exact hmanager _
  · cases hstep

theorem Counted.threadPoolCreate (hcounted : s.Counted) (hstep : s.threadPoolCreate = some s') :
    s.CountStep s' := by
  rw [State.threadPoolCreate] at hstep
  split at hstep
  · split_ifs at hstep
    · obtain rfl := Option.some.inj hstep
      refine ⟨rfl, rfl, hcounted.1, hcounted.2, hcounted.3, hcounted.4.trans ?_⟩
      simp [createWorker, List.countP_append, WorkerPc.busy]
    · obtain rfl := Option.some.inj hstep
      exact ⟨rfl, rfl, hcounted.1, hcounted.2, hcounted.3, hcounted.4⟩
  · cases hstep

theorem Counted.threadPoolDestroy (hcounted : s.Counted)
    (hstep : s.threadPoolDestroy wake = some s') : s.CountStep s' := by
  have hdestroyer : ∀ pc : DestroyerPc, s.CountStep { s with destroyer := pc } := fun pc =>
    ⟨rfl, rfl, hcounted.1, hcounted.2, hcounted.3, hcounted.4⟩
  rw [State.threadPoolDestroy] at hstep
  split at hstep
  · split_ifs at hstep
    obtain rfl := Option.some.inj hstep
    exact hdestroyer _
  · split_ifs at hstep
    · obtain ⟨hmin, hmax, hcounted'⟩ := countStep_signalNotEmpty hstep (hdestroyer _).counted
      exact ⟨hmin, hmax, hcounted'⟩
    · obtain rfl := Option.some.inj hstep
      exact hdestroyer _
  · cases hstep
  · cases hstep

theorem Counted.producer {p : ℕ} (hcounted : s.Counted) (hstep : s.producer p wake = some s') :
    s.CountStep s' := by
  have hadd : ∀ task, s.threadPoolAdd p task wake = some s' → s.CountStep s' := by
    intro task hadd
    rw [threadPoolAdd] at hadd
    split_ifs at hadd
    · obtain rfl := Option.some.inj hadd
      exact ⟨rfl, rfl, hcounted.1, hcounted.2, hcounted.3, hcounted.4⟩
    · obtain rfl := Option.some.inj hadd
      exact ⟨rfl, rfl, hcounted.1, hcounted.2, hcounted.3, hcounted.4⟩
    · obtain ⟨hmin, hmax, hcounted'⟩ := countStep_signalNotEmpty hadd
        ⟨hcounted.1, hcounted.2, hcounted.3, hcounted.4⟩
      exact ⟨hmin, hmax, hcounted'⟩
  rw [State.producer] at hstep
  split at hstep
  · exact hadd _ hstep
  · exact hadd _ hstep
  · obtain rfl := Option.some.inj hstep
    exact ⟨rfl, rfl, hcounted.1, hcounted.2, hcounted.3, hcounted.4⟩
  · obtain rfl := Option.some.inj hstep
    exact ⟨rfl, rfl, hcounted.1, hcounted.2, hcounted.3, hcounted.4⟩
  · obtain rfl := Option.some.inj hstep
    exact ⟨rfl, rfl, hcounted.1, hcounted.2, hcounted.3, hcounted.4⟩
  · obtain ⟨hmin, hmax, hcounted'⟩ := countStep_signalNotEmpty hstep
      ⟨hcounted.1, hcounted.2, hcounted.3, hcounted.4⟩
    exact ⟨hmin, hmax, hcounted'⟩
  all_goals cases hstep

/-- Every step, shutdown or not. -/
theorem Counted.step {a : Action} (hcounted : s.Counted) (hstep : s.step a = some s') :
    s.CountStep s' := by
  have hperform := perform_of_step hstep
  cases a with
  | run thread wake =>
      cases thread with
      | creator => exact hcounted.threadPoolCreate hperform
      | manager => exact hcounted.managerStep hperform
      | worker i => exact hcounted.worker hperform
      | producer p => exact hcounted.producer hperform
      | destroyer => exact hcounted.threadPoolDestroy hperform
  | add p task =>
      rw [perform] at hperform
      split_ifs at hperform
      obtain rfl := Option.some.inj hperform
      exact ⟨rfl, rfl, hcounted.1, hcounted.2, hcounted.3, hcounted.4⟩
  | destroy =>
      rw [perform] at hperform
      split_ifs at hperform
      obtain rfl := Option.some.inj hperform
      exact ⟨rfl, rfl, hcounted.1, hcounted.2, hcounted.3, hcounted.4⟩
  | spuriousWorker i =>
      rw [perform] at hperform
      split_ifs at hperform
      exact countStep_signalNotEmpty hperform hcounted
  | spuriousProducer p =>
      rw [perform] at hperform
      split_ifs at hperform
      exact countStep_signalNotFull hperform hcounted

end State

variable {minNum maxNum capacity : ℤ} {s : State}

/-- What holds of the counts of every reachable pool. -/
structure State.Accounted (minNum maxNum : ℤ) (s : State) : Prop where
  timely : s.Timely
  minNum_eq : s.minNum = minNum
  maxNum_eq : s.maxNum = maxNum
  counted : s.Counted
  staffed : s.shutdown = false → s.crew.Staffed

theorem accounted_initial (hmin : 0 ≤ minNum) (hmax : minNum ≤ maxNum) (producers : ℕ) :
    (State.initial minNum maxNum capacity producers).Accounted minNum maxNum where
  timely := timely_initial producers
  minNum_eq := rfl
  maxNum_eq := rfl
  counted := ⟨hmax, le_rfl, Int.zero_le_ofNat 2, rfl⟩
  staffed := fun _ => ⟨le_rfl, by simp [State.initial, State.crew, Crew.live, Crew.pending, hmin]⟩

theorem State.Accounted.step {s' : State} {a : Action} (haccounted : s.Accounted minNum maxNum)
    (hstep : s.step a = some s') : s'.Accounted minNum maxNum := by
  obtain ⟨htimely, rfl, rfl, hcounted, hstaffed⟩ := haccounted
  obtain ⟨hmin, hmax, hcounted'⟩ := hcounted.step hstep
  by_cases hopen : s'.shutdown = false
  · have htaken := openStep_step htimely hopen hstep
    refine ⟨htaken.timely, hmin, hmax, hcounted', fun _ => ?_⟩
    have hbefore := hstaffed htaken.shutdown
    rcases crewStep_step htimely hopen hstep with hcrew | ⟨i, wake, rfl, hretires, hcrew⟩
    · exact hbefore.step hcrew
    · rw [hcrew]
      exact hbefore.retire hretires.1 hretires.2.2
  · exact ⟨fun h => absurd h hopen, hmin, hmax, hcounted', fun h => absurd h hopen⟩

/-- In every state of an open pool that `threadPoolCreate` has returned, the counts
are within their bounds and are those of the threads. -/
theorem thread_counts (hmin : 0 ≤ minNum) (hmax : minNum ≤ maxNum)
    (hreach : (system minNum maxNum capacity).Reachable s) (hreturned : s.creator = .returned)
    (hopen : s.shutdown = false) :
    (minNum ≤ s.liveNum ∧ s.liveNum ≤ maxNum) ∧
      s.liveNum = s.workers.countP WorkerPc.live ∧
      (0 ≤ s.exitNum ∧ s.exitNum ≤ NUMBER) ∧
      s.busyNum = s.workers.countP WorkerPc.busy := by
  have haccounted : s.Accounted minNum maxNum := by
    apply hreach.invariant
    · rintro _ ⟨producers, rfl⟩
      exact accounted_initial hmin hmax producers
    · exact fun _ _ _ haccounted hstep => haccounted.step hstep
  obtain ⟨-, rfl, rfl, hcounted, hstaffed⟩ := haccounted
  have hnum := (hstaffed hopen).liveNum_eq
  rw [Crew.pending_returned hreturned, Nat.cast_zero, add_zero] at hnum
  exact ⟨⟨(hstaffed hopen).minNum_le, hcounted.liveNum_le⟩, hnum,
    ⟨hcounted.exitNum_nonneg, hcounted.exitNum_le⟩, hcounted.busyNum_eq⟩

/-- A worker runs the first of two tasks while the manager, that has seen both, starts
another. -/
theorem thread_counts_grown : ∃ s, (system 1 3 4).Reachable s ∧ s.creator = .returned ∧
    s.shutdown = false ∧ s.liveNum = s.workers.countP WorkerPc.live ∧ s.liveNum = 3 ∧
    s.busyNum = 1 := by
  have hfields : ((system 1 3 4).execute (.initial 1 3 4 1) (List.flatten
      [turns .creator 2, [.add 0 ⟨1, 10⟩], turns (.producer 0) 1, [.add 0 ⟨2, 20⟩],
        turns (.producer 0) 1, turns .manager 5, turns (.worker 0) 2])).map
      (fun s => (decide (s.creator = .returned), s.shutdown, s.liveNum, s.busyNum)) =
        some (true, false, 3, 1) := by
    decide +kernel
  obtain ⟨s, hs, heq⟩ := Option.map_eq_some_iff.mp hfields
  simp only [Prod.mk.injEq, decide_eq_true_eq] at heq
  obtain ⟨hreturned, hopen, hlive, hbusy⟩ := heq
  have hstart : (system 1 3 4).Run [] _ := .initial ⟨1, rfl⟩
  obtain ⟨visited, hrun⟩ := hstart.execute hs
  have hreach := hrun.reachable
  exact ⟨s, hreach, hreturned, hopen,
    (thread_counts (by decide) (by decide) hreach hreturned hopen).2.1, hlive, hbusy⟩

end CPool

end CppProjects
