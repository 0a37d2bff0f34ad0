import CppProjects.ThreadPool.CppPoolWakeup

/-!
# The task queue of the C++ pool

Producers push at any time; a worker tests the queue and takes from it under two
different mutexes.  It keeps `mutexPool` between the two, and nobody takes a task
without it, so the queue it has found filled is still filled.  The tasks taken,
followed by those in the queue, are therefore the tasks pushed, in order.
-/

namespace CppProjects

namespace CppPool

open TransitionSystem

/-! ## What a step adds, pushes and takes -/

/-- The task that a call of `ThreadPool::addTask` begins with. -/
def added (_ : State) : Action → List Task
  | .add _ task => [task]
  | _ => []

/-- The task that `TaskQueue::addTask` pushes. -/
def pushed (s : State) : Action → List Task
  | .run (.producer p) _ =>
      match s.producers[p]? with
      | some (.pushing task) => [task]
      | _ => []
  | _ => []

/-- The task that a worker gets from `TaskQueue::takeTask`. -/
def taken (s : State) : Action → List Task
  | .run (.worker i) _ =>
      if s.workers[i]? = some .passed ∧ s.shutdown = false then [(takeTask s.taskQ).1] else []
  | _ => []

/-- The task of a call that has not pushed it yet. -/
def ProducerPc.pending : ProducerPc → Option Task
  | .calling task | .pushing task => some task
  | .idle | .signalling => none

/-- The places at which a worker keeps `mutexPool`. -/
def WorkerPc.locked : WorkerPc → Bool
  | .testing | .blocking | .passed => true
  | _ => false

/-! ## The queue and its users -/

/-- The queue, the threads at its two ends, who has `mutexPool`, and whether the
pool is shut down. -/
structure Desk where
  workers : List WorkerPc
  producers : List ProducerPc
  mutexPool : Option ℕ
  taskQ : List Task
  shutdown : Bool

def State.desk (s : State) : Desk := ⟨s.workers, s.producers, s.mutexPool, s.taskQ, s.shutdown⟩

namespace Desk

def setWorker (desk : Desk) (i : ℕ) (pc : WorkerPc) : Desk :=
  { desk with workers := desk.workers.set i pc }

def setProducer (desk : Desk) (p : ℕ) (pc : ProducerPc) : Desk :=
  { desk with producers := desk.producers.set p pc }

/-- What a step may do, with the tasks it adds, pushes and takes. -/
inductive Step (desk : Desk) : List Task → List Task → List Task → Desk → Prop
  | same : Step desk [] [] [] desk
  /-- A worker locks `mutexPool`. -/
  | lock (i : ℕ) (hfree : desk.mutexPool = none) :
      Step desk [] [] [] { desk.setWorker i .testing with mutexPool := some i }
  /-- With `mutexPool`, a worker goes on to wait, or finds a task or a shutdown. -/
  | tested (i : ℕ) {pc : WorkerPc} (hget : desk.workers[i]? = some .testing)
      (hpc : pc = .blocking ∨ pc = .passed ∧ (desk.shutdown = false → desk.taskQ ≠ [])) :
      Step desk [] [] [] (desk.setWorker i pc)
  /-- A worker gives `mutexPool` back without a task. -/
  | unlock (i : ℕ) {pc pc' : WorkerPc} (hget : desk.workers[i]? = some pc)
      (hlocked : pc.locked = true) (hpc' : pc' = .waiting ∨ pc' = .leaving) :
      Step desk [] [] [] { desk.setWorker i pc' with mutexPool := none }
  | take (i : ℕ) (hget : desk.workers[i]? = some .passed) (hopen : desk.shutdown = false) :
      Step desk [] [] [(takeTask desk.taskQ).1]
        { desk.setWorker i (.running (takeTask desk.taskQ).1) with
          mutexPool := none
          taskQ := (takeTask desk.taskQ).2 }
  /-- A worker is woken, ends a task or exits. -/
  | move (i : ℕ) {pc : WorkerPc} (hunlocked : pc.locked = false)
      (hpc : ∀ task, pc ≠ .running task) : Step desk [] [] [] (desk.setWorker i pc)
  | hire (started : ℕ) :
      Step desk [] [] [] { desk with workers := desk.workers ++ List.replicate started .loop }
  | call (p : ℕ) (task : Task) (hget : desk.producers[p]? = some .idle) :
      Step desk [task] [] [] (desk.setProducer p (.calling task))
  /-- `addTask` goes on to push, or returns because the pool is shut down. -/
  | called (p : ℕ) (task : Task) {pc : ProducerPc} (hpc : pc = .idle ∨ pc = .pushing task)
      (hget : desk.producers[p]? = some (.calling task)) :
      Step desk [] [] [] (desk.setProducer p pc)
  | push (p : ℕ) (task : Task) (hget : desk.producers[p]? = some (.pushing task)) :
      Step desk [] [task] []
        { desk.setProducer p .signalling with taskQ := desk.taskQ ++ [task] }
  | signalNone (p : ℕ) (hget : desk.producers[p]? = some .signalling) :
      Step desk [] [] [] (desk.setProducer p .idle)
  | signal (p i : ℕ) (hget : desk.producers[p]? = some .signalling) :
      Step desk [] [] [] ((desk.setProducer p .idle).setWorker i .woken)
  | close : Step desk [] [] [] { desk with shutdown := true }

end Desk

/-! ## The steps of the pool -/

namespace State

variable {s s' : State} {wake : Option ℕ} {i p : ℕ}

theorem deskStep_signalNotEmpty (hsignal : s.signalNotEmpty wake = some s') :
    s.desk.Step [] [] [] s'.desk := by
  rcases signalNotEmpty_cases hsignal with ⟨-, rfl⟩ | ⟨i, -, rfl⟩
  · exact .same
  · exact .move i rfl (by simp)

theorem deskStep_worker (wake : Option ℕ) (hstep : s.worker i = some s') :
    s.desk.Step [] [] (taken s (.run (.worker i) wake)) s'.desk := by
  rw [worker] at hstep
  split at hstep
  next hget =>
    split_ifs at hstep with hfree
    obtain rfl := Option.some.inj hstep
    rw [taken, if_neg (by simp [hget])]
    exact .lock i hfree
  next hget =>
    rw [taken, if_neg (by simp [hget])]
    split_ifs at hstep with hempty
    · obtain rfl := Option.some.inj hstep
      exact .tested i hget (.inl rfl)
    · obtain rfl := Option.some.inj hstep
      exact .tested i hget (.inr ⟨rfl, fun hopen hnil => hempty ⟨hnil, hopen⟩⟩)
  next hget =>
    obtain rfl := Option.some.inj hstep
    rw [taken, if_neg (by simp [hget])]
    exact .unlock i hget rfl (.inl rfl)
  next hget =>
    split_ifs at hstep with hfree
    obtain rfl := Option.some.inj hstep
    rw [taken, if_neg (by simp [hget]), workerWoken]
    split_ifs
    · exact .move i rfl (by simp)
    · exact .lock i hfree
    · exact .lock i hfree
  next hget =>
    obtain rfl := Option.some.inj hstep
    by_cases hopen : s.shutdown = false
    · rw [taken, if_pos ⟨hget, hopen⟩, workerPassed, if_neg (by simp [hopen])]
      exact .take i hget hopen
    · rw [taken, if_neg (fun h => hopen h.2), workerPassed, if_pos (eq_true_of_ne_false hopen)]
      exact .unlock i hget rfl (.inr rfl)
  next hget =>
    obtain rfl := Option.some.inj hstep
    rw [taken, if_neg (by simp [hget])]
    exact .move i rfl (by simp)
  next hget =>
    split_ifs at hstep
    obtain rfl := Option.some.inj hstep
    rw [taken, if_neg (by simp [hget])]
    exact .move i rfl (by simp)
  next hget =>
    obtain rfl := Option.some.inj hstep
    rw [taken, if_neg (by simp [hget]), threadExit]
    split <;> exact .move i rfl (by simp)
  all_goals cases hstep

theorem deskStep_managerStep (hstep : s.managerStep wake = some s') :
    s.desk.Step [] [] [] s'.desk := by
  rw [managerStep] at hstep
  split at hstep
  · obtain rfl := Option.some.inj hstep
    exact .same
  · split_ifs at hstep
    obtain rfl := Option.some.inj hstep
    exact .same
  · split_ifs at hstep
    · obtain rfl := Option.some.inj hstep
      obtain ⟨started, table, hgrow⟩ := growLoop_cases s 0 0 s.maxNum.toNat
      rw [hgrow]
      exact .hire started
    · obtain rfl := Option.some.inj hstep
      exact .same
  · split_ifs at hstep
    · obtain rfl := Option.some.inj hstep
      exact .same
    · obtain rfl := Option.some.inj hstep
      exact .same
  · split_ifs at hstep
    · have hsignal := deskStep_signalNotEmpty hstep
      exact hsignal
    · obtain rfl := Option.some.inj hstep
      exact .same
  · cases hstep

theorem deskStep_addTask (hstep : s.addTask p wake = some s') :
    s.desk.Step [] (pushed s (.run (.producer p) wake)) [] s'.desk := by
  rw [addTask] at hstep
  rw [pushed]
  split at hstep
  next task hget =>
    rw [hget]
    split_ifs at hstep
    · obtain rfl := Option.some.inj hstep
      exact .called p task (.inl rfl) hget
    · obtain rfl := Option.some.inj hstep
      exact .called p task (.inr rfl) hget
  next task hget =>
    obtain rfl := Option.some.inj hstep
    rw [hget]
    exact .push p task hget
  next hget =>
    rw [hget]
    rcases signalNotEmpty_cases hstep with ⟨-, rfl⟩ | ⟨i, -, rfl⟩
    · exact .signalNone p hget
    · exact .signal p i hget
  all_goals cases hstep

theorem deskStep_construct (hstep : s.construct = some s') : s.desk.Step [] [] [] s'.desk := by
  rw [construct] at hstep
  split at hstep
  · split_ifs at hstep
    · obtain rfl := Option.some.inj hstep
      exact .hire 1
    · obtain rfl := Option.some.inj hstep
      exact .same
  · cases hstep

theorem deskStep_destroy (hstep : s.destroy wake = some s') : s.desk.Step [] [] [] s'.desk := by
  rw [destroy] at hstep
  split at hstep
  · split_ifs at hstep
    obtain rfl := Option.some.inj hstep
    exact .same
  · split_ifs at hstep
    · have hsignal := deskStep_signalNotEmpty hstep
      exact hsignal
    · obtain rfl := Option.some.inj hstep
      exact .same
  · cases hstep
  · cases hstep

theorem deskStep_step {a : Action} (hstep : s.step a = some s') :
    s.desk.Step (added s a) (pushed s a) (taken s a) s'.desk := by
  rw [step] at hstep
  split_ifs at hstep
  cases a with
  | run thread wake =>
      cases thread with
      | creator => exact deskStep_construct hstep
      | manager => exact deskStep_managerStep hstep
      | worker i => exact deskStep_worker wake hstep
      | producer p => exact deskStep_addTask hstep
      | destroyer => exact deskStep_destroy hstep
  | add p task =>
      rw [perform] at hstep
      split_ifs at hstep with hready
      obtain rfl := Option.some.inj hstep
      exact .call p task hready.2
  | destroy =>
      rw [perform] at hstep
      split_ifs at hstep
      obtain rfl := Option.some.inj hstep
      exact .close
  | spurious i =>
      rw [perform] at hstep
      split_ifs at hstep
      exact deskStep_signalNotEmpty hstep

end State

/-! ## What the holder of `mutexPool` has found -/

namespace Desk

variable {desk desk' : Desk} {adds pushes takes : List Task}

/-- The worker that may take a task is the only one, and the queue it has found
filled is still filled. -/
structure Sound (desk : Desk) : Prop where
  alone : ∀ (i : ℕ) pc, desk.workers[i]? = some pc → pc.locked = true → desk.mutexPool = some i
  filled : desk.shutdown = false → ∀ i : ℕ, desk.workers[i]? = some .passed → desk.taskQ ≠ []

theorem Sound.taskQ_ne_nil (hsound : desk.Sound) (hstep : desk.Step adds pushes takes desk')
    (htakes : takes ≠ []) : desk.taskQ ≠ [] := by
  cases hstep with
  | take i hget hopen => exact hsound.filled hopen i hget
  | _ => exact absurd rfl htakes

/-- With `mutexPool` at a worker, no other one is between its test and its take. -/
theorem Sound.eq_of_locked (hsound : desk.Sound) {i j : ℕ} {pc pc' : WorkerPc}
    (hget : desk.workers[i]? = some pc) (hlocked : pc.locked = true)
    (hget' : desk.workers[j]? = some pc') (hlocked' : pc'.locked = true) : j = i := by
  have hi := hsound.alone i pc hget hlocked
  have hj := hsound.alone j pc' hget' hlocked'
  rw [hi] at hj
  exact (Option.some.inj hj).symm

/-- A worker that moves to a place without `mutexPool` leaves the others where
they are. -/
theorem Sound.move (hsound : desk.Sound) {i : ℕ} {pc : WorkerPc} (hunlocked : pc.locked = false) :
    (desk.setWorker i pc).Sound where
  alone := by
    intro j pc' hget hlocked
    rcases getElem?_set_cases hget with ⟨rfl, rfl⟩ | ⟨hne, hold⟩
    · rw [hunlocked] at hlocked
      cases hlocked
    · exact hsound.alone j pc' hold hlocked
  filled := by
    intro hopen j hget
    rcases getElem?_set_cases hget with ⟨rfl, rfl⟩ | ⟨hne, hold⟩
    · cases hunlocked
    · exact hsound.filled hopen j hold

/-- The worker with `mutexPool` gives it back. -/
theorem Sound.unlock (hsound : desk.Sound) {i : ℕ} {pc pc' : WorkerPc}
    (hget : desk.workers[i]? = some pc) (hlocked : pc.locked = true)
    (hunlocked : pc'.locked = false) (queue : List Task) :
    Sound { desk.setWorker i pc' with mutexPool := none, taskQ := queue } := by
  have hnone : ∀ (j : ℕ) pc'', (desk.workers.set i pc')[j]? = some pc'' → pc''.locked = false := by
    intro j pc'' hj
    rcases getElem?_set_cases hj with ⟨rfl, rfl⟩ | ⟨hne, hold⟩
    · exact hunlocked
    · by_contra hlocked''
      exact hne (hsound.eq_of_locked hget hlocked hold (eq_true_of_ne_false hlocked''))
  constructor
  · intro j pc'' hj hlocked''
    rw [hnone j pc'' hj] at hlocked''
    cases hlocked''
  · intro _ j hj
    cases hnone j .passed hj

theorem Sound.step (hsound : desk.Sound) (hstep : desk.Step adds pushes takes desk') :
    desk'.Sound := by
  cases hstep with
  | same => exact hsound
  | lock i hfree =>
      have hnone : ∀ (j : ℕ) pc, desk.workers[j]? = some pc → pc.locked = false := by
        intro j pc hget
        by_contra hlocked
        have howner := hsound.alone j pc hget (eq_true_of_ne_false hlocked)
        rw [hfree] at howner
        cases howner
      constructor
      · intro j pc hget hlocked
        rcases getElem?_set_cases hget with ⟨rfl, rfl⟩ | ⟨hne, hold⟩
        · rfl
        · rw [hnone j pc hold] at hlocked
          cases hlocked
      · intro _ j hget
        rcases getElem?_set_cases hget with ⟨rfl, hpc⟩ | ⟨hne, hold⟩
        · cases hpc
        · cases hnone j .passed hold
  | @tested i pc hget hpc =>
      constructor
      · intro j pc' hj hlocked
        rcases getElem?_set_cases hj with ⟨rfl, rfl⟩ | ⟨hne, hold⟩
        · exact hsound.alone j .testing hget rfl
        · exact hsound.alone j pc' hold hlocked
      · intro hopen j hj
        rcases getElem?_set_cases hj with ⟨rfl, rfl⟩ | ⟨hne, hold⟩
        · rcases hpc with hblocking | ⟨-, hfilled⟩
          · cases hblocking
          · exact hfilled hopen
        · exact hsound.filled hopen j hold
  | unlock i hget hlocked hpc' =>
      rcases hpc' with rfl | rfl
      · exact hsound.unlock hget hlocked rfl desk.taskQ
      · exact hsound.unlock hget hlocked rfl desk.taskQ
  | take i hget hopen => exact hsound.unlock hget rfl rfl _
  | move i hunlocked hpc => exact hsound.move hunlocked
  | hire started =>
      have hold : ∀ (j : ℕ) pc, (desk.workers ++ List.replicate started .loop)[j]? = some pc →
          pc.locked = true → desk.workers[j]? = some pc := by
        intro j pc hget hlocked
        by_cases hlt : j < desk.workers.length
        · rwa [List.getElem?_append_left hlt] at hget
        · rw [List.getElem?_append_right (not_lt.mp hlt)] at hget
          obtain rfl := List.eq_of_mem_replicate (List.mem_of_getElem? hget)
          cases hlocked
      exact ⟨fun j pc hget hlocked => hsound.alone j pc (hold j pc hget hlocked) hlocked,
        fun hopen j hget => hsound.filled hopen j (hold j .passed hget rfl)⟩
  | call p task hget => exact ⟨hsound.alone, hsound.filled⟩
  | called p task hpc hget => exact ⟨hsound.alone, hsound.filled⟩
  | push p task hget => exact ⟨hsound.alone, fun _ _ _ => by simp⟩
  | signalNone p hget => exact ⟨hsound.alone, hsound.filled⟩
  | signal p i hget =>
      have hset : (desk.setWorker i .woken).Sound := hsound.move rfl
      exact ⟨hset.alone, hset.filled⟩
  | close => exact ⟨hsound.alone, fun hopen => nomatch hopen⟩

/-! ## The tasks on their way -/

/-- What is pushed is queued behind the rest, and what is taken was in front. -/
theorem Sound.taskQ_step (hsound : desk.Sound) (hstep : desk.Step adds pushes takes desk') :
    takes ++ desk'.taskQ = desk.taskQ ++ pushes := by
  cases hstep with
  | take i hget hopen =>
      change [(takeTask desk.taskQ).1] ++ (takeTask desk.taskQ).2 = desk.taskQ ++ []
      cases hqueue : desk.taskQ with
      | nil => exact absurd hqueue (hsound.filled hopen i hget)
      | cons task rest => rw [List.append_nil, takeTask, List.singleton_append]
  | push p task hget => rfl
  | _ => exact (List.append_nil _).symm

/-- The tasks of calls that have not pushed them yet. -/
def pending (desk : Desk) : List Task := desk.producers.filterMap ProducerPc.pending

/-- What is pushed or not pushed yet was not pushed before, or is added now. -/
theorem Step.pending_subperm (hstep : desk.Step adds pushes takes desk') :
    (pushes ++ desk'.pending).Subperm (adds ++ desk.pending) := by
  cases hstep with
  | call p task hget =>
      have hperm := filterMap_set_perm ProducerPc.pending hget (.calling task)
      exact hperm.subperm
  | @called p task pc hpc hget =>
      have hperm := filterMap_set_perm ProducerPc.pending hget pc
      rcases hpc with rfl | rfl
      · exact (List.sublist_cons_self task _).subperm.trans hperm.subperm
      · exact ((List.perm_append_left_iff [task]).mp hperm).subperm
  | push p task hget =>
      have hperm := filterMap_set_perm ProducerPc.pending hget .signalling
      exact hperm.subperm
  | signalNone p hget =>
      have hperm := filterMap_set_perm ProducerPc.pending hget .idle
      exact hperm.subperm
  | signal p i hget =>
      have hperm := filterMap_set_perm ProducerPc.pending hget .idle
      exact hperm.subperm
  | _ => exact List.Subperm.refl _

/-- A worker runs what it has taken. -/
theorem Step.running (hstep : desk.Step adds pushes takes desk') {i : ℕ} {task : Task}
    (hget : desk'.workers[i]? = some (.running task)) :
    desk.workers[i]? = some (.running task) ∨ task ∈ takes := by
  have hset : ∀ {j : ℕ} {pc : WorkerPc}, (∀ task, pc ≠ .running task) →
      (desk.workers.set j pc)[i]? = some (.running task) →
      desk.workers[i]? = some (.running task) := by
    intro j pc hpc hi
    rcases getElem?_set_cases hi with ⟨-, heq⟩ | ⟨-, hold⟩
    · exact absurd heq.symm (hpc task)
    · exact hold
  cases hstep with
  | lock j hfree => exact .inl (hset (by simp) hget)
  | @tested j pc hj hpc =>
      refine .inl (hset (fun task => ?_) hget)
      rcases hpc with rfl | ⟨rfl, -⟩ <;> simp
  | @unlock j pc pc' hj hlocked hpc' =>
      refine .inl (hset (fun task => ?_) hget)
      rcases hpc' with rfl | rfl <;> simp
  | take j hj hopen =>
      rcases getElem?_set_cases hget with ⟨-, heq⟩ | ⟨-, hold⟩
      · exact .inr (List.mem_singleton.mpr (WorkerPc.running.inj heq))
      · exact .inl hold
  | move j hunlocked hpc => exact .inl (hset hpc hget)
  | hire started =>
      rcases List.mem_append.mp (List.mem_of_getElem? hget) with - | hnew
      · by_cases hlt : i < desk.workers.length
        · exact .inl (by rwa [List.getElem?_append_left hlt] at hget)
        · change (desk.workers ++ List.replicate started .loop)[i]? = _ at hget
          rw [List.getElem?_append_right (not_lt.mp hlt)] at hget
          cases List.eq_of_mem_replicate (List.mem_of_getElem? hget)
      · cases List.eq_of_mem_replicate hnew
  | signal p j hp => exact .inl (hset (by simp) hget)
  | _ => exact .inl hget

end Desk

/-! ## Runs -/

variable {minNum maxNum : ℤ} {visited : List (State × Action)} {s : State}

theorem sound_of_reachable (hreach : (system minNum maxNum).Reachable s) : s.desk.Sound := by
  apply hreach.invariant (P := fun s => s.desk.Sound)
  · rintro _ ⟨producers, rfl⟩
    exact ⟨fun i pc hget => (nomatch hget), fun _ i hget => (nomatch hget)⟩
  · intro s a s' hsound hstep
    exact hsound.step (State.deskStep_step hstep)

/-- The tasks pushed are those taken and those in the queue, in order. -/
theorem pushed_eq_taken_append (hrun : (system minNum maxNum).Run visited s) :
    history pushed visited = history taken visited ++ s.taskQ := by
  induction hrun with
  | initial h =>
      obtain ⟨producers, rfl⟩ := h
      rfl
  | @step visited s s' a hrun hstep ih =>
      have hsound := sound_of_reachable hrun.reachable
      have hqueue := hsound.taskQ_step (State.deskStep_step hstep)
      calc history pushed (visited ++ [(s, a)])
          = history taken visited ++ (s.taskQ ++ pushed s a) := by
            rw [history_concat, ih, List.append_assoc]
        _ = history taken visited ++ (taken s a ++ s'.taskQ) := congrArg _ hqueue.symm
        _ = history taken (visited ++ [(s, a)]) ++ s'.taskQ := by
            rw [history_concat, List.append_assoc]

/-- Each call of `addTask` pushes at most once. -/
theorem pushed_subperm_added (hrun : (system minNum maxNum).Run visited s) :
    (history pushed visited ++ s.desk.pending).Subperm (history added visited) := by
  induction hrun with
  | initial h =>
      obtain ⟨producers, rfl⟩ := h
      have hnone : (State.initial minNum maxNum producers).desk.pending = [] := by
        refine List.filterMap_eq_nil_iff.mpr fun pc hmem => ?_
        rw [List.eq_of_mem_replicate hmem]
        rfl
      rw [hnone]
      exact List.Subperm.refl _
  | @step visited s s' a hrun hstep ih =>
      have hpending := (State.deskStep_step hstep).pending_subperm
      have hnew : (history pushed visited ++ (pushed s a ++ s'.desk.pending)).Subperm
          (history pushed visited ++ (added s a ++ s.desk.pending)) :=
        (List.subperm_append_left _).mpr hpending
      have hmove : (history pushed visited ++ (added s a ++ s.desk.pending)).Perm
          ((history pushed visited ++ s.desk.pending) ++ added s a) := by
        rw [List.append_assoc]
        exact List.perm_append_comm.append_left _
      have hold : ((history pushed visited ++ s.desk.pending) ++ added s a).Subperm
          (history added visited ++ added s a) := (List.subperm_append_right _).mpr ih
      rw [history_concat, history_concat, List.append_assoc]
      exact hnew.trans (hmove.subperm.trans hold)

theorem mem_taken_of_running (hrun : (system minNum maxNum).Run visited s) {i : ℕ} {task : Task}
    (hget : s.workers[i]? = some (.running task)) : task ∈ history taken visited := by
  induction hrun with
  | initial h =>
      obtain ⟨producers, rfl⟩ := h
      cases hget
  | @step visited s s' a hrun hstep ih =>
      rw [history_concat]
      rcases (State.deskStep_step hstep).running hget with hold | hnew
      · exact List.mem_append_left _ (ih hold)
      · exact List.mem_append_right _ hnew

/-- Workers take the tasks in the order in which they were pushed, each at most
once, and never from an empty queue; a task is pushed only after a call of
`addTask` with it, at most once for each call. -/
theorem taken_in_order (hrun : (system minNum maxNum).Run visited s) :
    history pushed visited = history taken visited ++ s.taskQ ∧
      (history pushed visited).Subperm (history added visited) ∧
      (∀ before ∈ visited, taken before.1 before.2 ≠ [] → before.1.taskQ ≠ []) ∧
      ∀ (i : ℕ) task, s.workers[i]? = some (.running task) → task ∈ history taken visited := by
  refine ⟨pushed_eq_taken_append hrun, ?_, ?_, fun i task => mem_taken_of_running hrun⟩
  · have hpending := (List.sublist_append_left (history pushed visited) s.desk.pending).subperm
    exact hpending.trans (pushed_subperm_added hrun)
  · intro before hmem htakes
    obtain ⟨s', hstep⟩ := hrun.enabled before hmem
    have hsound := sound_of_reachable (hrun.reachable_of_mem hmem)
    exact hsound.taskQ_ne_nil (State.deskStep_step hstep) htakes

/-- A task is added and the only worker takes it. -/
def addAndTake : List Action :=
  [.run .creator none, .run .creator none, .add 0 ⟨1, 10⟩, .run (.producer 0) none,
    .run (.producer 0) none, .run (.worker 0) none, .run (.worker 0) none, .run (.worker 0) none]

theorem taken_in_order_addAndTake :
    ∃ visited s, (system 1 1).Run visited s ∧ history pushed visited = history taken visited ∧
      ⟨1, 10⟩ ∈ history taken visited ∧ ⟨1, 10⟩ ∈ history added visited := by
  have hfields : ((system 1 1).execute (.initial 1 1 1) addAndTake).map
      (fun s => (s.taskQ, s.workers)) = some ([], [.running ⟨1, 10⟩]) := by decide +kernel
  obtain ⟨s, hs, heq⟩ := Option.map_eq_some_iff.mp hfields
  simp only [Prod.mk.injEq] at heq
  have hstart : (system 1 1).Run [] _ := .initial ⟨1, rfl⟩
  obtain ⟨visited, hrun⟩ := hstart.execute hs
  obtain ⟨hfifo, hadded, -, hrunning⟩ := taken_in_order hrun
  have htaken := hrunning 0 ⟨1, 10⟩ (by rw [heq.2]; rfl)
  rw [heq.1, List.append_nil] at hfifo
  exact ⟨visited, s, hrun, hfifo, htaken, hadded.subset (hfifo ▸ htaken)⟩

end CppPool

end CppProjects
