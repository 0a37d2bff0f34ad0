import CppProjects.ThreadPool.CPoolQueue
import CppProjects.ThreadPool.CppPoolWakeup

/-!
# The release of the thread pools

`threadPoolDestroy` and `~ThreadPool` join the manager alone, signal `notEmpty`
and release the queue, the table of threads and the mutexes.  A worker that has
not been through `threadDestroy` or `threadExit` by then still locks the mutexes
or reads the table.
-/

namespace CppProjects

/-! ## The C pool -/

namespace CPool

/-- Some worker still locks a mutex of the pool or reads its table. -/
def State.Inhabited (s : State) : Prop := ∃ pc ∈ s.workers, pc ≠ .exited

/-- A released pool has no worker left. -/
def State.Vacated (s : State) : Prop := s.destroyer = .freed → ∀ pc ∈ s.workers, pc = .exited

/-- `threadPoolDestroy` has sent its signals and releases the pool, although some
worker has not been through `threadDestroy`. -/
def State.ReleasesEarly (s : State) (a : Action) : Prop :=
  ∃ wake i, a = .run .destroyer wake ∧ s.destroyer = .signalling i ∧ s.liveNum ≤ i ∧ s.Inhabited

namespace State

variable {s s' : State} {wake : Option ℕ}

theorem destroyer_signalNotEmpty (hsignal : s.signalNotEmpty wake = some s') :
    s'.destroyer = s.destroyer := by
  rcases signalNotEmpty_cases hsignal with ⟨-, rfl⟩ | ⟨i, -, rfl⟩ <;> rfl

theorem destroyer_signalNotFull (hsignal : s.signalNotFull wake = some s') :
    s'.destroyer = s.destroyer := by
  rcases signalNotFull_cases hsignal with rfl | ⟨p, task, -, rfl⟩ <;> rfl

theorem destroyer_workerRegion {i : ℕ} (hstep : s.workerRegion i wake = some s') :
    s'.destroyer = s.destroyer := by
  rw [workerRegion] at hstep
  split_ifs at hstep
  · obtain rfl := Option.some.inj hstep
    rfl
  · obtain rfl := Option.some.inj hstep
    rfl
  · exact (destroyer_signalNotFull hstep).trans rfl

theorem destroyer_worker {i : ℕ} (hstep : s.worker i wake = some s') :
    s'.destroyer = s.destroyer := by
  rw [worker] at hstep
  split at hstep
  · exact destroyer_workerRegion hstep
  · rw [workerWoken] at hstep
    split_ifs at hstep
    · obtain rfl := Option.some.inj hstep
      rfl
    · exact (destroyer_workerRegion hstep).trans rfl
    · exact destroyer_workerRegion hstep
  · obtain rfl := Option.some.inj hstep
    rfl
  · obtain rfl := Option.some.inj hstep
    rfl
  · obtain rfl := Option.some.inj hstep
    rfl
  · obtain rfl := Option.some.inj hstep
    rw [threadDestroy]
    split <;> rfl
  all_goals cases hstep

theorem destroyer_managerStep (hstep : s.managerStep wake = some s') :
    s'.destroyer = s.destroyer := by
  rw [managerStep] at hstep
  split at hstep
  · obtain rfl := Option.some.inj hstep
    rfl
  · obtain rfl := Option.some.inj hstep
    rfl
  · obtain rfl := Option.some.inj hstep
    rfl
  · obtain rfl := Option.some.inj hstep
    split_ifs
    · obtain ⟨started, table, hgrown⟩ := growLoop_cases s 0 0 s.maxNum.toNat
      rw [hgrown]
    · rfl
  · split_ifs at hstep
    · obtain rfl := Option.some.inj hstep
      rfl
    · obtain rfl := Option.some.inj hstep
      rfl
  · split_ifs at hstep
    · exact (destroyer_signalNotEmpty hstep).trans rfl
    · obtain rfl := Option.some.inj hstep
      rfl
  · cases hstep

theorem destroyer_threadPoolAdd {p : ℕ} {task : Task}
    (hstep : s.threadPoolAdd p task wake = some s') : s'.destroyer = s.destroyer := by
  rw [threadPoolAdd] at hstep
  split_ifs at hstep
  · obtain rfl := Option.some.inj hstep
    rfl
  · obtain rfl := Option.some.inj hstep
    rfl
  · exact (destroyer_signalNotEmpty hstep).trans rfl

theorem destroyer_producer {p : ℕ} (hstep : s.producer p wake = some s') :
    s'.destroyer = s.destroyer := by
  rw [producer] at hstep
  split at hstep
  · exact destroyer_threadPoolAdd hstep
  · exact destroyer_threadPoolAdd hstep
  · obtain rfl := Option.some.inj hstep
    rfl
  · obtain rfl := Option.some.inj hstep
    rfl
  · obtain rfl := Option.some.inj hstep
    rfl
  · exact (destroyer_signalNotEmpty hstep).trans rfl
  all_goals cases hstep

theorem destroyer_threadPoolCreate (hstep : s.threadPoolCreate = some s') :
    s'.destroyer = s.destroyer := by
  rw [threadPoolCreate] at hstep
  split at hstep
  · split_ifs at hstep
    · obtain rfl := Option.some.inj hstep
      rfl
    · obtain rfl := Option.some.inj hstep
      rfl
  · cases hstep

/-- The step that releases the pool. -/
theorem threadPoolDestroy_freed (hstep : s.threadPoolDestroy wake = some s')
    (hfreed : s'.destroyer = .freed) :
    ∃ i, s.destroyer = .signalling i ∧ s.liveNum ≤ i ∧ s'.workers = s.workers := by
  rw [threadPoolDestroy] at hstep
  split at hstep
  · split_ifs at hstep
    obtain rfl := Option.some.inj hstep
    cases hfreed
  next i hsignalling =>
    split_ifs at hstep with hlt
    · rw [destroyer_signalNotEmpty hstep] at hfreed
      cases hfreed
    · obtain rfl := Option.some.inj hstep
      exact ⟨i, hsignalling, not_lt.mp hlt, rfl⟩
  · cases hstep
  · cases hstep

/-- No other step does. -/
theorem step_freed {a : Action} (hstep : s.step a = some s') (hfreed : s'.destroyer = .freed) :
    ∃ wake i, a = .run .destroyer wake ∧ s.destroyer = .signalling i ∧ s.liveNum ≤ i ∧
      s'.workers = s.workers := by
  have hperform := perform_of_step hstep
  have hopen : s.destroyer ≠ .freed := by
    rw [step] at hstep
    split_ifs at hstep with hdone
    exact hdone
  have hsame : s'.destroyer ≠ s.destroyer := fun heq => hopen (heq ▸ hfreed)
  cases a with
  | run thread wake =>
      cases thread with
      | creator => exact absurd (destroyer_threadPoolCreate hperform) hsame
      | manager => exact absurd (destroyer_managerStep hperform) hsame
      | worker i => exact absurd (destroyer_worker hperform) hsame
      | producer p => exact absurd (destroyer_producer hperform) hsame
      | destroyer =>
          obtain ⟨i, hrelease⟩ := threadPoolDestroy_freed hperform hfreed
          exact ⟨wake, i, rfl, hrelease⟩
  | add p task =>
      rw [perform] at hperform
      split_ifs at hperform
      obtain rfl := Option.some.inj hperform
      exact absurd rfl hsame
  | destroy =>
      rw [perform] at hperform
      split_ifs at hperform
      obtain rfl := Option.some.inj hperform
      cases hfreed
  | spuriousWorker i =>
      rw [perform] at hperform
      split_ifs at hperform
      exact absurd (destroyer_signalNotEmpty hperform) hsame
  | spuriousProducer p =>
      rw [perform] at hperform
      split_ifs at hperform
      exact absurd (destroyer_signalNotFull hperform) hsame

theorem vacated_step {a : Action} (hstep : s.step a = some s') (hlate : ¬ s.ReleasesEarly a) :
    s'.Vacated := by
  intro hfreed pc hmem
  obtain ⟨wake, i, rfl, hsignalling, hle, hworkers⟩ := step_freed hstep hfreed
  rw [hworkers] at hmem
  by_contra hne
  exact hlate ⟨wake, i, rfl, hsignalling, hle, pc, hmem, hne⟩

theorem not_vacated_of_releasesEarly {a : Action} (hstep : s.step a = some s')
    (hearly : s.ReleasesEarly a) : ¬ s'.Vacated := by
  obtain ⟨wake, i, rfl, hsignalling, hle, pc, hmem, hne⟩ := hearly
  have hperform : s.threadPoolDestroy wake = some s' := perform_of_step hstep
  rw [threadPoolDestroy, hsignalling] at hperform
  dsimp only at hperform
  rw [if_neg (not_lt.mpr hle)] at hperform
  obtain rfl := Option.some.inj hperform
  exact fun hvacated => hne (hvacated rfl pc hmem)

/-! ### The release cannot be relied on -/

/-- The manager is at `pc`, the pool is shut down, and a worker is left. -/
def Closing (pc : ManagerPc) (s : State) : Prop :=
  s.destroyer = .joining ∧ s.shutdown = true ∧ s.manager = pc ∧ s.Inhabited

theorem inhabited_set {i : ℕ} (hinhabited : s.Inhabited) {pc : WorkerPc} (hpc : pc ≠ .exited) :
    (s.setWorker i pc).Inhabited :=
  exists_mem_set hinhabited hpc i

/-- A signal can always be sent. -/
theorem exists_signalNotEmpty (s : State) : ∃ wake s', s.signalNotEmpty wake = some s' ∧
    (s' = s ∨ ∃ i, s' = s.setWorker i .woken) := by
  by_cases hwaiting : .waiting ∈ s.workers
  · obtain ⟨i, hget⟩ := List.getElem?_of_mem hwaiting
    refine ⟨some i, s.setWorker i .woken, ?_, .inr ⟨i, rfl⟩⟩
    rw [signalNotEmpty, if_pos hget]
  · refine ⟨none, s, ?_, .inl rfl⟩
    rw [signalNotEmpty, if_neg hwaiting]

end State

section Leads

open State TransitionSystem

variable {minNum maxNum capacity : ℤ}

theorem step_eq_perform {s : State} (hopen : s.destroyer ≠ .freed) (a : Action) :
    (system minNum maxNum capacity).step s a = s.perform a := if_neg hopen

theorem leads_of_managerStep {pc : ManagerPc} {Q : State → Prop}
    (hstep : ∀ s, Closing pc s → ∃ wake s', s.managerStep wake = some s' ∧ Q s') :
    (system minNum maxNum capacity).Leads (Closing pc) Q := by
  refine Leads.of_step fun s hs => ?_
  obtain ⟨wake, s', hs', hclosing⟩ := hstep s hs
  refine ⟨.run .manager wake, s', ?_, hclosing⟩
  rw [step_eq_perform (by simp [hs.1])]
  exact hs'

theorem leads_exited_of_test :
    (system minNum maxNum capacity).Leads (Closing .test) (Closing .exited) := by
  apply leads_of_managerStep
  rintro s ⟨hjoining, hshutdown, hmanager, hinhabited⟩
  refine ⟨none, { s with manager := .exited }, ?_, hjoining, hshutdown, rfl, hinhabited⟩
  simp [managerStep, hmanager, hshutdown]

theorem leads_exited_of_signalling (i : ℤ) :
    (system minNum maxNum capacity).Leads (Closing (.signalling i)) (Closing .exited) := by
  apply Leads.loop (fun i => Closing (.signalling i)) NUMBER
  · intro i hlt
    apply leads_of_managerStep
    rintro s ⟨hjoining, hshutdown, hmanager, hinhabited⟩
    obtain ⟨wake, s', hsignal, hs'⟩ :=
      exists_signalNotEmpty { s with manager := .signalling (i + 1) }
    refine ⟨wake, s', ?_, ?_⟩
    · rw [managerStep, hmanager]
      exact (if_pos hlt).trans hsignal
    · rcases hs' with rfl | ⟨j, rfl⟩
      · exact ⟨hjoining, hshutdown, rfl, hinhabited⟩
      · exact ⟨hjoining, hshutdown, rfl, inhabited_set hinhabited (by decide)⟩
  · intro i hdone
    refine Leads.trans ?_ leads_exited_of_test
    apply leads_of_managerStep
    rintro s ⟨hjoining, hshutdown, hmanager, hinhabited⟩
    refine ⟨none, { s with manager := .test }, ?_, hjoining, hshutdown, rfl, hinhabited⟩
    rw [managerStep, hmanager]
    exact if_neg hdone

theorem leads_exited_of_shrink (liveNum busyNum : ℤ) :
    (system minNum maxNum capacity).Leads (Closing (.shrink liveNum busyNum))
      (Closing .exited) := by
  refine Leads.trans ?_ (leads_exited_of_test.or (leads_exited_of_signalling 0))
  apply leads_of_managerStep
  rintro s ⟨hjoining, hshutdown, hmanager, hinhabited⟩
  by_cases hexit : busyNum * 2 < liveNum ∧ liveNum > s.minNum
  · refine ⟨none, { s with exitNum := NUMBER, manager := .signalling 0 }, ?_,
      .inr ⟨hjoining, hshutdown, rfl, hinhabited⟩⟩
    rw [managerStep, hmanager]
    exact if_pos hexit
  · refine ⟨none, { s with manager := .test }, ?_, .inl ⟨hjoining, hshutdown, rfl, hinhabited⟩⟩
    rw [managerStep, hmanager]
    exact if_neg hexit

theorem leads_exited_of_grow (queueSize liveNum busyNum : ℤ) :
    (system minNum maxNum capacity).Leads (Closing (.grow queueSize liveNum busyNum))
      (Closing .exited) := by
  refine Leads.trans ?_ (leads_exited_of_shrink liveNum busyNum)
  apply leads_of_managerStep
  rintro s ⟨hjoining, hshutdown, hmanager, hinhabited⟩
  refine ⟨none, _, by rw [managerStep, hmanager], ?_⟩
  split_ifs
  · obtain ⟨started, table, hgrown⟩ := growLoop_cases s 0 0 s.maxNum.toNat
    rw [hgrown]
    obtain ⟨pc, hmem, hne⟩ := hinhabited
    exact ⟨hjoining, hshutdown, rfl, pc, List.mem_append_left _ hmem, hne⟩
  · exact ⟨hjoining, hshutdown, rfl, hinhabited⟩

theorem leads_exited_of_snapshot (queueSize liveNum : ℤ) :
    (system minNum maxNum capacity).Leads (Closing (.snapshot queueSize liveNum))
      (Closing .exited) := by
  refine Leads.trans ?_ (Leads.exists fun busyNum => leads_exited_of_grow queueSize liveNum busyNum)
  apply leads_of_managerStep
  rintro s ⟨hjoining, hshutdown, hmanager, hinhabited⟩
  refine ⟨none, { s with manager := .grow queueSize liveNum s.busyNum }, ?_, s.busyNum, hjoining,
    hshutdown, rfl, hinhabited⟩
  rw [managerStep, hmanager]

theorem leads_exited_of_asleep :
    (system minNum maxNum capacity).Leads (Closing .asleep) (Closing .exited) := by
  refine Leads.trans ?_ (Leads.exists fun read : ℤ × ℤ => leads_exited_of_snapshot read.1 read.2)
  apply leads_of_managerStep
  rintro s ⟨hjoining, hshutdown, hmanager, hinhabited⟩
  refine ⟨none, { s with manager := .snapshot s.queueSize s.liveNum }, ?_, (s.queueSize, s.liveNum),
    hjoining, hshutdown, rfl, hinhabited⟩
  rw [managerStep, hmanager]

/-- Wherever the manager is, it can go on to its exit. -/
theorem leads_exited (pc : ManagerPc) :
    (system minNum maxNum capacity).Leads (Closing pc) (Closing .exited) := by
  cases pc with
  | test => exact leads_exited_of_test
  | asleep => exact leads_exited_of_asleep
  | snapshot queueSize liveNum => exact leads_exited_of_snapshot queueSize liveNum
  | grow queueSize liveNum busyNum => exact leads_exited_of_grow queueSize liveNum busyNum
  | shrink liveNum busyNum => exact leads_exited_of_shrink liveNum busyNum
  | signalling i => exact leads_exited_of_signalling i
  | exited => exact Leads.of_imp fun _ hs => hs

/-- The destructor is about to send signal `i` of `liveNum`. -/
def Signalling (i liveNum : ℤ) (s : State) : Prop :=
  s.destroyer = .signalling i ∧ s.liveNum = liveNum ∧ s.Inhabited

/-- The pool is released while a worker is left. -/
def ReleasedEarly (s : State) : Prop := s.destroyer = .freed ∧ s.Inhabited

theorem leads_of_threadPoolDestroy {P Q : State → Prop} (hopen : ∀ s, P s → s.destroyer ≠ .freed)
    (hstep : ∀ s, P s → ∃ wake s', s.threadPoolDestroy wake = some s' ∧ Q s') :
    (system minNum maxNum capacity).Leads P Q := by
  refine Leads.of_step fun s hs => ?_
  obtain ⟨wake, s', hs', hQ⟩ := hstep s hs
  refine ⟨.run .destroyer wake, s', ?_, hQ⟩
  rw [step_eq_perform (hopen s hs)]
  exact hs'

theorem leads_releasedEarly (i liveNum : ℤ) :
    (system minNum maxNum capacity).Leads (Signalling i liveNum) ReleasedEarly := by
  apply Leads.loop (fun i => Signalling i liveNum) liveNum
  · intro i hlt
    apply leads_of_threadPoolDestroy
    · rintro s ⟨hsignalling, -⟩
      simp [hsignalling]
    · rintro s ⟨hsignalling, hlive, hinhabited⟩
      obtain ⟨wake, s', hsignal, hs'⟩ :=
        exists_signalNotEmpty { s with destroyer := .signalling (i + 1) }
      refine ⟨wake, s', ?_, ?_⟩
      · rw [threadPoolDestroy, hsignalling]
        exact (if_pos (hlive ▸ hlt)).trans hsignal
      · rcases hs' with rfl | ⟨j, rfl⟩
        · exact ⟨rfl, hlive, hinhabited⟩
        · exact ⟨rfl, hlive, inhabited_set hinhabited (by decide)⟩
  · intro i hdone
    apply leads_of_threadPoolDestroy
    · rintro s ⟨hsignalling, -⟩
      simp [hsignalling]
    · rintro s ⟨hsignalling, hlive, hinhabited⟩
      refine ⟨none, { s with destroyer := .freed }, ?_, rfl, hinhabited⟩
      rw [threadPoolDestroy, hsignalling]
      exact if_neg (hlive ▸ hdone)

/-- `threadPoolDestroy` may be called, and a worker has not left. -/
def Destroyable (s : State) : Prop :=
  s.creator = .returned ∧ s.destroyer = .absent ∧ s.Inhabited

/-- Whenever `threadPoolDestroy` is called with a worker left, it can release the
pool with a worker left. -/
theorem leads_releasedEarly_of_destroyable :
    (system minNum maxNum capacity).Leads Destroyable ReleasedEarly := by
  have hcall : (system minNum maxNum capacity).Leads Destroyable fun s => ∃ pc, Closing pc s := by
    refine Leads.of_step fun s hs => ?_
    obtain ⟨hreturned, habsent, hinhabited⟩ := hs
    refine ⟨.destroy, { s with shutdown := true, destroyer := .joining }, ?_,
      s.manager, rfl, rfl, rfl, hinhabited⟩
    rw [step_eq_perform (by simp [habsent])]
    exact if_pos ⟨hreturned, habsent⟩
  have hjoin : (system minNum maxNum capacity).Leads (Closing .exited)
      fun s => ∃ liveNum, Signalling 0 liveNum s := by
    apply leads_of_threadPoolDestroy
    · rintro s ⟨hjoining, -⟩
      simp [hjoining]
    · rintro s ⟨hjoining, -, hmanager, hinhabited⟩
      refine ⟨none, { s with destroyer := .signalling 0 }, ?_, s.liveNum, rfl, rfl, hinhabited⟩
      rw [threadPoolDestroy, hjoining]
      exact if_pos hmanager
  have hsignals : (system minNum maxNum capacity).Leads (fun s => ∃ liveNum, Signalling 0 liveNum s)
      ReleasedEarly :=
    Leads.exists fun liveNum => leads_releasedEarly 0 liveNum
  exact (hcall.trans (Leads.exists leads_exited)).trans (hjoin.trans hsignals)

end Leads

end CPool

/-! ## The C++ pool -/

namespace CppPool

/-- Some worker still locks `mutexPool` or reads the table. -/
def State.Inhabited (s : State) : Prop := ∃ pc ∈ s.workers, pc ≠ .exited

/-- A released pool has no worker left. -/
def State.Vacated (s : State) : Prop := s.destroyer = .freed → ∀ pc ∈ s.workers, pc = .exited

/-- `~ThreadPool` has sent its signals and releases the pool, although some
worker has not been through `threadExit`. -/
def State.ReleasesEarly (s : State) (a : Action) : Prop :=
  ∃ wake i, a = .run .destroyer wake ∧ s.destroyer = .signalling i ∧ s.liveNum ≤ i ∧ s.Inhabited

/-- The positions at which a worker has `mutexPool`. -/
def WorkerPc.owns : WorkerPc → Bool
  | .testing | .blocking | .passed => true
  | .loop | .waiting | .woken | .running _ | .ending | .leaving | .exited => false

/-- The owner of `mutexPool` is at a position at which it has it. -/
def State.Owned (s : State) : Prop :=
  ∀ i, s.mutexPool = some i → ∃ pc, s.workers[i]? = some pc ∧ pc.owns = true

namespace State

variable {s s' : State} {wake : Option ℕ}

/-- What all steps but the workers' leave as it is. -/
structure Frame (s s' : State) : Prop where
  destroyer : s'.destroyer = s.destroyer
  mutexPool : s'.mutexPool = s.mutexPool
  owners : ∀ (i : ℕ) (pc : WorkerPc), pc.owns = true → s.workers[i]? = some pc →
    s'.workers[i]? = some pc

theorem frame_of_workers (hdestroyer : s'.destroyer = s.destroyer)
    (hmutex : s'.mutexPool = s.mutexPool) (hworkers : s'.workers = s.workers) : s.Frame s' :=
  ⟨hdestroyer, hmutex, fun _ _ _ hget => hworkers ▸ hget⟩

theorem Frame.owned (hframe : s.Frame s') (howned : s.Owned) : s'.Owned := by
  intro i hmutex
  obtain ⟨pc, hget, howns⟩ := howned i (hframe.mutexPool ▸ hmutex)
  exact ⟨pc, hframe.owners i pc howns hget, howns⟩

theorem frame_signalNotEmpty (hsignal : s.signalNotEmpty wake = some s') : s.Frame s' := by
  rcases signalNotEmpty_cases hsignal with ⟨-, rfl⟩ | ⟨i, hwaiting, rfl⟩
  · exact frame_of_workers rfl rfl rfl
  · refine ⟨rfl, rfl, fun j pc howns hget => ?_⟩
    have hne : pc ≠ .waiting := by
      rintro rfl
      cases howns
    exact getElem?_set_of_ne hwaiting hne hget .woken

theorem frame_hire {started : ℕ} (hdestroyer : s'.destroyer = s.destroyer)
    (hmutex : s'.mutexPool = s.mutexPool)
    (hworkers : s'.workers = s.workers ++ List.replicate started .loop) : s.Frame s' := by
  refine ⟨hdestroyer, hmutex, fun i pc _ hget => ?_⟩
  rw [hworkers, List.getElem?_append_left (List.getElem?_eq_some_iff.mp hget).1, hget]

theorem frame_managerStep (hstep : s.managerStep wake = some s') : s.Frame s' := by
  rw [managerStep] at hstep
  split at hstep
  · obtain rfl := Option.some.inj hstep
    exact frame_of_workers rfl rfl rfl
  · split_ifs at hstep
    obtain rfl := Option.some.inj hstep
    exact frame_of_workers rfl rfl rfl
  · split_ifs at hstep
    · obtain rfl := Option.some.inj hstep
      obtain ⟨started, table, hgrown⟩ := growLoop_cases s 0 0 s.maxNum.toNat
      rw [hgrown]
      exact frame_hire rfl rfl rfl
    · obtain rfl := Option.some.inj hstep
      exact frame_of_workers rfl rfl rfl
  · split_ifs at hstep
    · obtain rfl := Option.some.inj hstep
      exact frame_of_workers rfl rfl rfl
    · obtain rfl := Option.some.inj hstep
      exact frame_of_workers rfl rfl rfl
  · split_ifs at hstep
    · have hframe := frame_signalNotEmpty hstep
      exact ⟨hframe.destroyer, hframe.mutexPool, hframe.owners⟩
    · obtain rfl := Option.some.inj hstep
      exact frame_of_workers rfl rfl rfl
  · cases hstep

theorem frame_addTask {p : ℕ} (hstep : s.addTask p wake = some s') : s.Frame s' := by
  rw [addTask] at hstep
  split at hstep
  · split_ifs at hstep
    · obtain rfl := Option.some.inj hstep
      exact frame_of_workers rfl rfl rfl
    · obtain rfl := Option.some.inj hstep
      exact frame_of_workers rfl rfl rfl
  · obtain rfl := Option.some.inj hstep
    exact frame_of_workers rfl rfl rfl
  · have hframe := frame_signalNotEmpty hstep
    exact ⟨hframe.destroyer, hframe.mutexPool, hframe.owners⟩
  all_goals cases hstep

theorem frame_construct (hstep : s.construct = some s') : s.Frame s' := by
  rw [construct] at hstep
  split at hstep
  · split_ifs at hstep
    · obtain rfl := Option.some.inj hstep
      exact @frame_hire _ _ 1 rfl rfl rfl
    · obtain rfl := Option.some.inj hstep
      exact frame_of_workers rfl rfl rfl
  · cases hstep

theorem getElem?_setWorker_self {i : ℕ} {pc : WorkerPc} (hget : s.workers[i]? = some pc)
    (pc' : WorkerPc) : (s.setWorker i pc').workers[i]? = some pc' :=
  List.getElem?_set_self (List.getElem?_eq_some_iff.mp hget).1

/-- A worker that takes `mutexPool` or keeps it. -/
theorem owned_of_self {i : ℕ} {pc : WorkerPc} (hmutex : s'.mutexPool = some i)
    (hget : s'.workers[i]? = some pc) (howns : pc.owns = true) : s'.Owned := by
  intro j hj
  rw [hmutex] at hj
  obtain rfl := Option.some.inj hj
  exact ⟨pc, hget, howns⟩

theorem owned_of_none (hmutex : s'.mutexPool = none) : s'.Owned := by
  intro i hi
  rw [hmutex] at hi
  cases hi

/-- A worker that does not have `mutexPool` and does not take it. -/
theorem Owned.setWorker (howned : s.Owned) {i : ℕ} {pc pc' : WorkerPc}
    (hget : s.workers[i]? = some pc) (howns : pc.owns = false) (hmutex : s'.mutexPool = s.mutexPool)
    (hworkers : s'.workers = s.workers.set i pc') : s'.Owned := by
  intro j hj
  obtain ⟨other, hother, hothers⟩ := howned j (hmutex ▸ hj)
  have hne : other ≠ pc := by
    rintro rfl
    rw [howns] at hothers
    cases hothers
  refine ⟨other, ?_, hothers⟩
  rw [hworkers]
  exact getElem?_set_of_ne hget hne hother pc'

theorem owned_worker {i : ℕ} (howned : s.Owned) (hstep : s.worker i = some s') : s'.Owned := by
  rw [worker] at hstep
  split at hstep
  next hget =>
    split_ifs at hstep
    obtain rfl := Option.some.inj hstep
    exact owned_of_self rfl (getElem?_setWorker_self hget .testing) rfl
  next hget =>
    have hkept : ∀ pc : WorkerPc, pc.owns = true → (s.setWorker i pc).Owned := by
      intro pc howns j hj
      obtain ⟨other, hother, hothers⟩ := howned j hj
      by_cases hij : i = j
      · exact ⟨pc, hij ▸ getElem?_setWorker_self hget pc, howns⟩
      · exact ⟨other, (List.getElem?_set_ne hij).trans hother, hothers⟩
    split_ifs at hstep
    · obtain rfl := Option.some.inj hstep
      exact hkept .blocking rfl
    · obtain rfl := Option.some.inj hstep
      exact hkept .passed rfl
  next hget =>
    obtain rfl := Option.some.inj hstep
    exact owned_of_none rfl
  next hget =>
    split_ifs at hstep with hmutex
    obtain rfl := Option.some.inj hstep
    rw [workerWoken]
    split_ifs
    · exact owned_of_none hmutex
    · exact owned_of_self rfl (getElem?_setWorker_self hget .testing) rfl
    · exact owned_of_self rfl (getElem?_setWorker_self hget .testing) rfl
  next hget =>
    obtain rfl := Option.some.inj hstep
    rw [workerPassed]
    split_ifs <;> exact owned_of_none rfl
  next task hget =>
    obtain rfl := Option.some.inj hstep
    exact howned.setWorker hget rfl rfl rfl
  next hget =>
    split_ifs at hstep
    obtain rfl := Option.some.inj hstep
    exact howned.setWorker hget rfl rfl rfl
  next hget =>
    obtain rfl := Option.some.inj hstep
    rw [threadExit]
    split <;> exact howned.setWorker hget rfl rfl rfl
  all_goals cases hstep

theorem destroyer_worker {i : ℕ} (hstep : s.worker i = some s') : s'.destroyer = s.destroyer := by
  rw [worker] at hstep
  split at hstep
  · split_ifs at hstep
    obtain rfl := Option.some.inj hstep
    rfl
  · split_ifs at hstep
    · obtain rfl := Option.some.inj hstep
      rfl
    · obtain rfl := Option.some.inj hstep
      rfl
  · obtain rfl := Option.some.inj hstep
    rfl
  · split_ifs at hstep
    obtain rfl := Option.some.inj hstep
    rw [workerWoken]
    split_ifs <;> rfl
  · obtain rfl := Option.some.inj hstep
    rw [workerPassed]
    split_ifs <;> rfl
  · obtain rfl := Option.some.inj hstep
    rfl
  · split_ifs at hstep
    obtain rfl := Option.some.inj hstep
    rfl
  · obtain rfl := Option.some.inj hstep
    rw [threadExit]
    split <;> rfl
  all_goals cases hstep

/-- What a step of the destructor does. -/
theorem destroy_cases (hstep : s.destroy wake = some s') :
    (s.Frame { s' with destroyer := s.destroyer } ∧ s'.destroyer ≠ .freed) ∨
      ∃ i, s.destroyer = .signalling i ∧ s.liveNum ≤ i ∧ s' = { s with destroyer := .freed } := by
  rw [destroy] at hstep
  split at hstep
  · split_ifs at hstep
    obtain rfl := Option.some.inj hstep
    exact .inl ⟨frame_of_workers rfl rfl rfl, by simp⟩
  next i hsignalling =>
    split_ifs at hstep with hlt
    · have hframe := frame_signalNotEmpty hstep
      refine .inl ⟨⟨rfl, hframe.mutexPool, hframe.owners⟩, ?_⟩
      rw [hframe.destroyer]
      simp
    · obtain rfl := Option.some.inj hstep
      exact .inr ⟨i, hsignalling, not_lt.mp hlt, rfl⟩
  · cases hstep
  · cases hstep

theorem perform_of_step {a : Action} (hstep : s.step a = some s') :
    s.destroyer ≠ .freed ∧ s.perform a = some s' := by
  rw [step] at hstep
  split_ifs at hstep with hopen
  exact ⟨hopen, hstep⟩

theorem owned_step {a : Action} (howned : s.Owned) (hstep : s.step a = some s') : s'.Owned := by
  obtain ⟨-, hperform⟩ := perform_of_step hstep
  cases a with
  | run thread wake =>
      cases thread with
      | creator => exact (frame_construct hperform).owned howned
      | manager => exact (frame_managerStep hperform).owned howned
      | worker i => exact owned_worker howned hperform
      | producer p => exact (frame_addTask hperform).owned howned
      | destroyer =>
          rcases destroy_cases hperform with ⟨hframe, -⟩ | ⟨i, -, -, rfl⟩
          · exact hframe.owned howned
          · exact howned
  | add p task =>
      rw [perform] at hperform
      split_ifs at hperform
      obtain rfl := Option.some.inj hperform
      exact howned
  | destroy =>
      rw [perform] at hperform
      split_ifs at hperform
      obtain rfl := Option.some.inj hperform
      exact howned
  | spurious i =>
      rw [perform] at hperform
      split_ifs at hperform
      exact (frame_signalNotEmpty hperform).owned howned

/-- The step that releases the pool. -/
theorem step_freed {a : Action} (hstep : s.step a = some s') (hfreed : s'.destroyer = .freed) :
    ∃ wake i, a = .run .destroyer wake ∧ s.destroyer = .signalling i ∧ s.liveNum ≤ i ∧
      s'.workers = s.workers := by
  obtain ⟨hopen, hperform⟩ := perform_of_step hstep
  have hsame : s'.destroyer ≠ s.destroyer := fun heq => hopen (heq ▸ hfreed)
  cases a with
  | run thread wake =>
      cases thread with
      | creator => exact absurd (frame_construct hperform).destroyer hsame
      | manager => exact absurd (frame_managerStep hperform).destroyer hsame
      | worker i => exact absurd (destroyer_worker hperform) hsame
      | producer p => exact absurd (frame_addTask hperform).destroyer hsame
      | destroyer =>
          rcases destroy_cases hperform with ⟨-, hne⟩ | ⟨i, hsignalling, hle, rfl⟩
          · exact absurd hfreed hne
          · exact ⟨wake, i, rfl, hsignalling, hle, rfl⟩
  | add p task =>
      rw [perform] at hperform
      split_ifs at hperform
      obtain rfl := Option.some.inj hperform
      exact absurd rfl hsame
  | destroy =>
      rw [perform] at hperform
      split_ifs at hperform
      obtain rfl := Option.some.inj hperform
      cases hfreed
  | spurious i =>
      rw [perform] at hperform
      split_ifs at hperform
      exact absurd (frame_signalNotEmpty hperform).destroyer hsame

theorem vacated_step {a : Action} (hstep : s.step a = some s') (hlate : ¬ s.ReleasesEarly a) :
    s'.Vacated := by
  intro hfreed pc hmem
  obtain ⟨wake, i, rfl, hsignalling, hle, hworkers⟩ := step_freed hstep hfreed
  rw [hworkers] at hmem
  by_contra hne
  exact hlate ⟨wake, i, rfl, hsignalling, hle, pc, hmem, hne⟩

theorem not_vacated_of_releasesEarly {a : Action} (hstep : s.step a = some s')
    (hearly : s.ReleasesEarly a) : ¬ s'.Vacated := by
  obtain ⟨wake, i, rfl, hsignalling, hle, pc, hmem, hne⟩ := hearly
  have hperform : s.destroy wake = some s' := (perform_of_step hstep).2
  rw [destroy, hsignalling] at hperform
  dsimp only at hperform
  rw [if_neg (not_lt.mpr hle)] at hperform
  obtain rfl := Option.some.inj hperform
  exact fun hvacated => hne (hvacated rfl pc hmem)

/-! ### The release cannot be relied on -/

/-- The manager is at `pc`, nobody has `mutexPool`, the pool is shut down, and a
worker is left. -/
def Closing (pc : ManagerPc) (s : State) : Prop :=
  s.destroyer = .joining ∧ s.shutdown = true ∧ s.mutexPool = none ∧ s.manager = pc ∧ s.Inhabited

theorem inhabited_set {i : ℕ} (hinhabited : s.Inhabited) {pc : WorkerPc} (hpc : pc ≠ .exited) :
    (s.setWorker i pc).Inhabited :=
  exists_mem_set hinhabited hpc i

theorem inhabited_of_getElem? {i : ℕ} {pc : WorkerPc} (hget : s.workers[i]? = some pc)
    (hpc : pc ≠ .exited) : s.Inhabited :=
  ⟨pc, List.mem_of_getElem? hget, hpc⟩

/-- A signal can always be sent. -/
theorem exists_signalNotEmpty (s : State) : ∃ wake s', s.signalNotEmpty wake = some s' ∧
    (s' = s ∨ ∃ i, s' = s.setWorker i .woken) := by
  by_cases hwaiting : .waiting ∈ s.workers
  · obtain ⟨i, hget⟩ := List.getElem?_of_mem hwaiting
    refine ⟨some i, s.setWorker i .woken, ?_, .inr ⟨i, rfl⟩⟩
    rw [signalNotEmpty, if_pos hget]
  · refine ⟨none, s, ?_, .inl rfl⟩
    rw [signalNotEmpty, if_neg hwaiting]

end State

section Leads

open State TransitionSystem

variable {minNum maxNum : ℤ}

theorem step_eq_perform {s : State} (hopen : s.destroyer ≠ .freed) (a : Action) :
    (system minNum maxNum).step s a = s.perform a := if_neg hopen

theorem leads_of_managerStep {pc : ManagerPc} {Q : State → Prop}
    (hstep : ∀ s, Closing pc s → ∃ wake s', s.managerStep wake = some s' ∧ Q s') :
    (system minNum maxNum).Leads (Closing pc) Q := by
  refine Leads.of_step fun s hs => ?_
  obtain ⟨wake, s', hs', hclosing⟩ := hstep s hs
  refine ⟨.run .manager wake, s', ?_, hclosing⟩
  rw [step_eq_perform (by simp [hs.1])]
  exact hs'

theorem leads_exited_of_test :
    (system minNum maxNum).Leads (Closing .test) (Closing .exited) := by
  apply leads_of_managerStep
  rintro s ⟨hjoining, hshutdown, hmutex, hmanager, hinhabited⟩
  refine ⟨none, { s with manager := .exited }, ?_, hjoining, hshutdown, hmutex, rfl, hinhabited⟩
  simp [managerStep, hmanager, hshutdown]

theorem leads_exited_of_signalling (i : ℤ) :
    (system minNum maxNum).Leads (Closing (.signalling i)) (Closing .exited) := by
  apply Leads.loop (fun i => Closing (.signalling i)) NUMBER
  · intro i hlt
    apply leads_of_managerStep
    rintro s ⟨hjoining, hshutdown, hmutex, hmanager, hinhabited⟩
    obtain ⟨wake, s', hsignal, hs'⟩ :=
      exists_signalNotEmpty { s with manager := .signalling (i + 1) }
    refine ⟨wake, s', ?_, ?_⟩
    · rw [managerStep, hmanager]
      exact (if_pos hlt).trans hsignal
    · rcases hs' with rfl | ⟨j, rfl⟩
      · exact ⟨hjoining, hshutdown, hmutex, rfl, hinhabited⟩
      · exact ⟨hjoining, hshutdown, hmutex, rfl, inhabited_set hinhabited (by decide)⟩
  · intro i hdone
    refine Leads.trans ?_ leads_exited_of_test
    apply leads_of_managerStep
    rintro s ⟨hjoining, hshutdown, hmutex, hmanager, hinhabited⟩
    refine ⟨none, { s with manager := .test }, ?_, hjoining, hshutdown, hmutex, rfl, hinhabited⟩
    rw [managerStep, hmanager]
    exact if_neg hdone

theorem leads_exited_of_shrink (liveNum busyNum : ℤ) :
    (system minNum maxNum).Leads (Closing (.shrink liveNum busyNum)) (Closing .exited) := by
  refine Leads.trans ?_ (leads_exited_of_test.or (leads_exited_of_signalling 0))
  apply leads_of_managerStep
  rintro s ⟨hjoining, hshutdown, hmutex, hmanager, hinhabited⟩
  by_cases hexit : busyNum * 2 < liveNum ∧ liveNum > s.minNum
  · refine ⟨none, { s with exitNum := NUMBER, manager := .signalling 0 }, ?_,
      .inr ⟨hjoining, hshutdown, hmutex, rfl, hinhabited⟩⟩
    rw [managerStep, hmanager]
    exact (if_pos hexit).trans (if_pos hmutex)
  · refine ⟨none, { s with manager := .test }, ?_,
      .inl ⟨hjoining, hshutdown, hmutex, rfl, hinhabited⟩⟩
    rw [managerStep, hmanager]
    exact if_neg hexit

theorem leads_exited_of_grow (queueSize liveNum busyNum : ℤ) :
    (system minNum maxNum).Leads (Closing (.grow queueSize liveNum busyNum)) (Closing .exited) := by
  refine Leads.trans ?_ (leads_exited_of_shrink liveNum busyNum)
  apply leads_of_managerStep
  rintro s ⟨hjoining, hshutdown, hmutex, hmanager, hinhabited⟩
  by_cases hgrow : queueSize > liveNum ∧ liveNum < s.maxNum
  · refine ⟨none, { s.growLoop 0 0 s.maxNum.toNat with manager := .shrink liveNum busyNum }, ?_, ?_⟩
    · rw [managerStep, hmanager]
      exact (if_pos hgrow).trans (if_pos hmutex)
    · obtain ⟨started, table, hgrown⟩ := growLoop_cases s 0 0 s.maxNum.toNat
      rw [hgrown]
      obtain ⟨pc, hmem, hne⟩ := hinhabited
      exact ⟨hjoining, hshutdown, hmutex, rfl, pc, List.mem_append_left _ hmem, hne⟩
  · refine ⟨none, { s with manager := .shrink liveNum busyNum }, ?_, hjoining, hshutdown, hmutex, rfl,
      hinhabited⟩
    rw [managerStep, hmanager]
    exact if_neg hgrow

theorem leads_exited_of_asleep :
    (system minNum maxNum).Leads (Closing .asleep) (Closing .exited) := by
  refine Leads.trans ?_ (Leads.exists fun queueSize => Leads.exists fun liveNum =>
    Leads.exists fun busyNum => leads_exited_of_grow queueSize liveNum busyNum)
  apply leads_of_managerStep
  rintro s ⟨hjoining, hshutdown, hmutex, hmanager, hinhabited⟩
  have hstep : s.managerStep none =
      some { s with manager := .grow (CInt.toInt s.taskQ.length) s.liveNum s.busyNum } := by
    rw [managerStep, hmanager]
    exact if_pos hmutex
  exact ⟨none, _, hstep, _, _, _, hjoining, hshutdown, hmutex, rfl, hinhabited⟩

/-- Wherever the manager is, it can go on to its exit. -/
theorem leads_exited (pc : ManagerPc) :
    (system minNum maxNum).Leads (Closing pc) (Closing .exited) := by
  cases pc with
  | test => exact leads_exited_of_test
  | asleep => exact leads_exited_of_asleep
  | grow queueSize liveNum busyNum => exact leads_exited_of_grow queueSize liveNum busyNum
  | shrink liveNum busyNum => exact leads_exited_of_shrink liveNum busyNum
  | signalling i => exact leads_exited_of_signalling i
  | exited => exact Leads.of_imp fun _ hs => hs

/-- The destructor is about to send signal `i` of `liveNum`. -/
def Signalling (i liveNum : ℤ) (s : State) : Prop :=
  s.destroyer = .signalling i ∧ s.liveNum = liveNum ∧ s.Inhabited

/-- The pool is released while a worker is left. -/
def ReleasedEarly (s : State) : Prop := s.destroyer = .freed ∧ s.Inhabited

theorem leads_of_destroy {P Q : State → Prop} (hopen : ∀ s, P s → s.destroyer ≠ .freed)
    (hstep : ∀ s, P s → ∃ wake s', s.destroy wake = some s' ∧ Q s') :
    (system minNum maxNum).Leads P Q := by
  refine Leads.of_step fun s hs => ?_
  obtain ⟨wake, s', hs', hQ⟩ := hstep s hs
  refine ⟨.run .destroyer wake, s', ?_, hQ⟩
  rw [step_eq_perform (hopen s hs)]
  exact hs'

theorem leads_releasedEarly (i liveNum : ℤ) :
    (system minNum maxNum).Leads (Signalling i liveNum) ReleasedEarly := by
  apply Leads.loop (fun i => Signalling i liveNum) liveNum
  · intro i hlt
    apply leads_of_destroy
    · rintro s ⟨hsignalling, -⟩
      simp [hsignalling]
    · rintro s ⟨hsignalling, hlive, hinhabited⟩
      obtain ⟨wake, s', hsignal, hs'⟩ :=
        exists_signalNotEmpty { s with destroyer := .signalling (i + 1) }
      refine ⟨wake, s', ?_, ?_⟩
      · rw [destroy, hsignalling]
        exact (if_pos (hlive ▸ hlt)).trans hsignal
      · rcases hs' with rfl | ⟨j, rfl⟩
        · exact ⟨rfl, hlive, hinhabited⟩
        · exact ⟨rfl, hlive, inhabited_set hinhabited (by decide)⟩
  · intro i hdone
    apply leads_of_destroy
    · rintro s ⟨hsignalling, -⟩
      simp [hsignalling]
    · rintro s ⟨hsignalling, hlive, hinhabited⟩
      refine ⟨none, { s with destroyer := .freed }, ?_, rfl, hinhabited⟩
      rw [destroy, hsignalling]
      exact if_neg (hlive ▸ hdone)

/-- The destructor may be called, and a worker has not left. -/
def Destroyable (s : State) : Prop :=
  s.creator = .returned ∧ s.destroyer = .absent ∧ s.Inhabited

/-- The destructor may be called, and worker `i` has `mutexPool`. -/
def Locked (i : ℕ) (pc : WorkerPc) (s : State) : Prop :=
  s.creator = .returned ∧ s.destroyer = .absent ∧ s.mutexPool = some i ∧ s.workers[i]? = some pc

/-- The destructor may be called, and nobody has `mutexPool`. -/
def Unlocked (s : State) : Prop := Destroyable s ∧ s.mutexPool = none

theorem leads_of_worker {i : ℕ} {pc : WorkerPc} {Q : State → Prop}
    (hstep : ∀ s, Locked i pc s → ∃ s', s.worker i = some s' ∧ Q s') :
    (system minNum maxNum).Leads (Locked i pc) Q := by
  refine Leads.of_step fun s hs => ?_
  obtain ⟨s', hs', hQ⟩ := hstep s hs
  refine ⟨.run (.worker i) none, s', ?_, hQ⟩
  rw [step_eq_perform (by simp [hs.2.1])]
  exact hs'

theorem leads_unlocked_of_blocking (i : ℕ) :
    (system minNum maxNum).Leads (Locked i .blocking) Unlocked := by
  apply leads_of_worker
  rintro s ⟨hreturned, habsent, hmutex, hget⟩
  refine ⟨{ s with mutexPool := none }.setWorker i .waiting, ?_, ⟨hreturned, habsent, ?_⟩, rfl⟩
  · rw [worker, hget]
  · exact inhabited_of_getElem? (getElem?_setWorker_self hget .waiting) (by decide)

theorem leads_unlocked_of_passed (i : ℕ) :
    (system minNum maxNum).Leads (Locked i .passed) Unlocked := by
  apply leads_of_worker
  rintro s ⟨hreturned, habsent, hmutex, hget⟩
  refine ⟨s.workerPassed i, by rw [worker, hget], ?_⟩
  rw [workerPassed]
  split_ifs
  · have hleft := inhabited_of_getElem? (getElem?_setWorker_self hget .leaving) (by decide)
    exact ⟨⟨hreturned, habsent, hleft⟩, rfl⟩
  · have htaken := getElem?_setWorker_self hget (.running (takeTask s.taskQ).1)
    exact ⟨⟨hreturned, habsent, inhabited_of_getElem? htaken (by simp)⟩, rfl⟩

/-- A worker that has `mutexPool` can give it up without leaving. -/
theorem leads_unlocked {i : ℕ} {pc : WorkerPc} (howns : pc.owns = true) :
    (system minNum maxNum).Leads (Locked i pc) Unlocked := by
  cases pc with
  | testing =>
      refine Leads.trans ?_ ((leads_unlocked_of_blocking i).or (leads_unlocked_of_passed i))
      apply leads_of_worker
      rintro s ⟨hreturned, habsent, hmutex, hget⟩
      by_cases hempty : s.taskQ = [] ∧ s.shutdown = false
      · refine ⟨s.setWorker i .blocking, ?_, .inl ⟨hreturned, habsent, hmutex, ?_⟩⟩
        · rw [worker, hget]
          exact if_pos hempty
        · exact getElem?_setWorker_self hget .blocking
      · refine ⟨s.setWorker i .passed, ?_, .inr ⟨hreturned, habsent, hmutex, ?_⟩⟩
        · rw [worker, hget]
          exact if_neg hempty
        · exact getElem?_setWorker_self hget .passed
  | blocking => exact leads_unlocked_of_blocking i
  | passed => exact leads_unlocked_of_passed i
  | loop | waiting | woken | running | ending | leaving | exited => cases howns

/-- Whenever the destructor is called with a worker left, it can release the pool
with a worker left. -/
theorem leads_releasedEarly_of_destroyable :
    (system minNum maxNum).Leads (fun s => s.Owned ∧ Destroyable s) ReleasedEarly := by
  have hunlock : (system minNum maxNum).Leads (fun s => s.Owned ∧ Destroyable s) Unlocked := by
    rintro s ⟨howned, hs⟩
    cases hmutex : s.mutexPool with
    | none => exact ⟨[], s, rfl, hs, hmutex⟩
    | some i =>
        obtain ⟨pc, hget, howns⟩ := howned i hmutex
        exact leads_unlocked howns s ⟨hs.1, hs.2.1, hmutex, hget⟩
  have hcall : (system minNum maxNum).Leads Unlocked fun s => ∃ pc, Closing pc s := by
    refine Leads.of_step fun s hs => ?_
    obtain ⟨⟨hreturned, habsent, hinhabited⟩, hmutex⟩ := hs
    refine ⟨.destroy, { s with shutdown := true, destroyer := .joining }, ?_,
      s.manager, rfl, rfl, hmutex, rfl, hinhabited⟩
    rw [step_eq_perform (by simp [habsent])]
    exact if_pos ⟨hreturned, habsent⟩
  have hjoin : (system minNum maxNum).Leads (Closing .exited)
      fun s => ∃ liveNum, Signalling 0 liveNum s := by
    apply leads_of_destroy
    · rintro s ⟨hjoining, -⟩
      simp [hjoining]
    · rintro s ⟨hjoining, -, -, hmanager, hinhabited⟩
      refine ⟨none, { s with destroyer := .signalling 0 }, ?_, s.liveNum, rfl, rfl, hinhabited⟩
      rw [destroy, hjoining]
      exact if_pos hmanager
  have hsignals : (system minNum maxNum).Leads (fun s => ∃ liveNum, Signalling 0 liveNum s)
      ReleasedEarly := Leads.exists fun liveNum => leads_releasedEarly 0 liveNum
  exact (hunlock.trans (hcall.trans (Leads.exists leads_exited))).trans (hjoin.trans hsignals)

theorem owned_of_reachable {s : State} (hreach : (system minNum maxNum).Reachable s) :
    s.Owned := by
  apply hreach.invariant
  · rintro _ ⟨producers, rfl⟩
    exact owned_of_none rfl
  · exact fun s a s' howned hstep => owned_step howned hstep

end Leads

end CppPool

/-! ## Both pools -/

open TransitionSystem

/-- The pools are released without a worker left in exactly the runs in which the
releasing step finds none; and wherever they can be destroyed with a worker left,
some run from there releases them with a worker left. -/
theorem vacated_iff (minNum maxNum capacity : ℤ) :
    ((∀ visited s, (CPool.system minNum maxNum capacity).Run visited s →
      (((∀ before ∈ visited, before.1.Vacated) ∧ s.Vacated) ↔
        ∀ taken ∈ visited, ¬ taken.1.ReleasesEarly taken.2)) ∧
      ∀ s, (CPool.system minNum maxNum capacity).Reachable s → CPool.Destroyable s →
        ∃ labels s', (CPool.system minNum maxNum capacity).execute s labels = some s' ∧
          ¬ s'.Vacated) ∧
    ((∀ visited s, (CppPool.system minNum maxNum).Run visited s →
      (((∀ before ∈ visited, before.1.Vacated) ∧ s.Vacated) ↔
        ∀ taken ∈ visited, ¬ taken.1.ReleasesEarly taken.2)) ∧
      ∀ s, (CppPool.system minNum maxNum).Reachable s → CppPool.Destroyable s →
        ∃ labels s', (CppPool.system minNum maxNum).execute s labels = some s' ∧
          ¬ s'.Vacated) := by
  refine ⟨⟨fun visited s hrun => ?_, fun s _ hs => ?_⟩, fun visited s hrun => ?_, fun s hreach hs => ?_⟩
  · apply Run.forall_iff (Q := CPool.State.Vacated) (fun _ h => h) ?_ ?_ ?_ hrun
    · rintro _ ⟨producers, rfl⟩ hfreed
      cases hfreed
    · exact fun s a s' _ hstep hlate => CPool.State.vacated_step hstep hlate
    · exact fun s a s' _ hstep hearly => CPool.State.not_vacated_of_releasesEarly hstep hearly
  · obtain ⟨labels, s', hlabels, hfreed, pc, hmem, hne⟩ :=
      CPool.leads_releasedEarly_of_destroyable s hs
    exact ⟨labels, s', hlabels, fun hvacated => hne (hvacated hfreed pc hmem)⟩
  · apply Run.forall_iff (Q := CppPool.State.Vacated) (fun _ h => h) ?_ ?_ ?_ hrun
    · rintro _ ⟨producers, rfl⟩ hfreed
      cases hfreed
    · exact fun s a s' _ hstep hlate => CppPool.State.vacated_step hstep hlate
    · exact fun s a s' _ hstep hearly => CppPool.State.not_vacated_of_releasesEarly hstep hearly
  · obtain ⟨labels, s', hlabels, hfreed, pc, hmem, hne⟩ :=
      CppPool.leads_releasedEarly_of_destroyable s ⟨CppPool.owned_of_reachable hreach, hs⟩
    exact ⟨labels, s', hlabels, fun hvacated => hne (hvacated hfreed pc hmem)⟩

/-- A pool with one worker is created and destroyed at once. -/
def CPool.destroyAtOnce : List CPool.Action :=
  [.run .creator none, .run .creator none, .destroy, .run .manager none, .run .destroyer none,
    .run .destroyer none, .run .destroyer none]

theorem CPool.exists_destroyAtOnce :
    ∃ visited s, (CPool.system 1 1 1).Run visited s ∧ ¬ s.Vacated := by
  have hfields : ((CPool.system 1 1 1).execute (.initial 1 1 1 0) destroyAtOnce).map
      (fun s => (s.destroyer, s.workers)) = some (.freed, [.loop]) := by
    decide +kernel
  obtain ⟨s, hs, heq⟩ := Option.map_eq_some_iff.mp hfields
  simp only [Prod.mk.injEq] at heq
  have hstart : (CPool.system 1 1 1).Run [] _ := .initial ⟨0, rfl⟩
  obtain ⟨visited, hrun⟩ := hstart.execute hs
  refine ⟨visited, s, hrun, fun hvacated => ?_⟩
  exact absurd (hvacated heq.1 .loop (by simp [heq.2])) (by decide)

theorem vacated_iff_destroyAtOnce :
    ∃ visited s, (CPool.system 1 1 1).Run visited s ∧ ¬ s.Vacated ∧
      ∃ taken ∈ visited, taken.1.ReleasesEarly taken.2 := by
  obtain ⟨visited, s, hrun, hearly⟩ := CPool.exists_destroyAtOnce
  refine ⟨visited, s, hrun, hearly, ?_⟩
  by_contra hnone
  refine hearly (((vacated_iff 1 1 1).1.1 visited s hrun).mpr ?_).2
  exact fun taken hmem hreleases => hnone ⟨taken, hmem, hreleases⟩

theorem not_vacated :
    ¬ ((∀ s, (CPool.system 1 1 1).Reachable s → s.Vacated) ∧
      ∀ s, (CppPool.system 1 1).Reachable s → s.Vacated) := by
  rintro ⟨hall, -⟩
  obtain ⟨visited, s, hrun, hearly⟩ := CPool.exists_destroyAtOnce
  exact hearly (hall s hrun.reachable)

end CppProjects
