import CppProjects.Core.ListUpdate
import CppProjects.ThreadPool.CppPool

/-!
# Wakeups of the C++ pool

`addTask` pushes and signals without `mutexPool`.  Both can happen after a worker
has found the queue empty and before it waits, and then the signal wakes nobody.
-/

namespace CppProjects

namespace CppPool

/-- The workers, the callers of `addTask` and the queue between them. -/
structure Crew where
  workers : List WorkerPc
  producers : List ProducerPc
  creator : CreatorPc
  minNum : ℤ
  taskQ : List Task

def State.crew (s : State) : Crew := ⟨s.workers, s.producers, s.creator, s.minNum, s.taskQ⟩

namespace Crew

def setWorker (crew : Crew) (i : ℕ) (pc : WorkerPc) : Crew :=
  { crew with workers := crew.workers.set i pc }

def setProducer (crew : Crew) (p : ℕ) (pc : ProducerPc) : Crew :=
  { crew with producers := crew.producers.set p pc }

def hire (crew : Crew) (started : ℕ) : Crew :=
  { crew with workers := crew.workers ++ List.replicate started .loop }

/-- What a step may do to the crew of an open pool, other than letting a worker
block. -/
inductive Step (crew : Crew) : Crew → Prop
  | same : Step crew crew
  | move (i : ℕ) {pc : WorkerPc} (hlt : i < crew.workers.length) (hpc : pc ≠ .waiting)
      (queue : List Task) : Step crew { crew.setWorker i pc with taskQ := queue }
  | grow (started : ℕ) : Step crew (crew.hire started)
  | create (i : ℤ) (hcreating : crew.creator = .creating i) :
      Step crew { crew.hire 1 with creator := .creating (i + 1) }
  | created (i : ℤ) (hcreating : crew.creator = .creating i) (hle : crew.minNum ≤ i) :
      Step crew { crew with creator := .returned }
  | call (p : ℕ) {pc : ProducerPc} (hlt : p < crew.producers.length) (hpc : pc ≠ .idle)
      (hactive : crew.creator = .returned ∨ ∃ pc ∈ crew.producers, pc ≠ .idle)
      (queue : List Task) : Step crew { crew.setProducer p pc with taskQ := queue }
  | signal (p : ℕ) (i : ℕ) (hlt : i < crew.workers.length) :
      Step crew ((crew.setProducer p .idle).setWorker i .woken)
  | signalNone (p : ℕ) (hget : crew.producers[p]? = some .signalling)
      (hnone : .waiting ∉ crew.workers) : Step crew (crew.setProducer p .idle)

end Crew

/-! ## The steps -/

namespace State

variable {s s' : State} {wake : Option ℕ} {i p : ℕ}

theorem signalNotEmpty_cases (hsignal : s.signalNotEmpty wake = some s') :
    (.waiting ∉ s.workers ∧ s' = s) ∨
      ∃ i, s.workers[i]? = some .waiting ∧ s' = s.setWorker i .woken := by
  cases wake with
  | none =>
      rw [signalNotEmpty] at hsignal
      split_ifs at hsignal with hnone
      exact .inl ⟨hnone, (Option.some.inj hsignal).symm⟩
  | some i =>
      rw [signalNotEmpty] at hsignal
      split_ifs at hsignal with hget
      exact .inr ⟨i, hget, (Option.some.inj hsignal).symm⟩

theorem crewStep_signalNotEmpty (hsignal : s.signalNotEmpty wake = some s') :
    s.crew.Step s'.crew := by
  rcases signalNotEmpty_cases hsignal with ⟨-, rfl⟩ | ⟨i, hget, rfl⟩
  · exact .same
  · exact .move i (List.getElem?_eq_some_iff.mp hget).1 (by decide) s.taskQ

/-- Growth starts threads, counts them and fills slots of the table. -/
theorem growLoop_cases (s : State) (counter : ℤ) (i slots : ℕ) :
    ∃ (started : ℕ) (table : ℕ → ℕ), s.growLoop counter i slots =
      { s with
        workers := s.workers ++ List.replicate started .loop
        liveNum := s.liveNum + started
        threadIDs := table } := by
  induction slots generalizing s counter i with
  | zero => exact ⟨0, s.threadIDs, by simp [growLoop]⟩
  | succ slots ih =>
      rw [growLoop]
      split_ifs with hgo hfree
      · obtain ⟨started, table, hrest⟩ :=
          ih { s.createWorker i with liveNum := s.liveNum + 1 } (counter + 1) (i + 1)
        refine ⟨started + 1, table, hrest.trans ?_⟩
        simp only [createWorker, List.append_assoc, List.singleton_append, Nat.cast_add,
          Nat.cast_one, ← List.replicate_succ]
        rw [add_assoc, add_comm 1 (started : ℤ)]
      · exact ih s counter (i + 1)
      · exact ⟨0, s.threadIDs, by simp⟩

theorem crewStep_worker (hstep : s.worker i = some s') :
    s.crew.Step s'.crew ∨
      (s.workers[i]? = some .blocking ∧ s'.crew = s.crew.setWorker i .waiting) := by
  rw [worker] at hstep
  have hlt : ∀ {pc}, s.workers[i]? = some pc → i < s.workers.length :=
    fun hget => (List.getElem?_eq_some_iff.mp hget).1
  split at hstep
  next hget =>
    split_ifs at hstep
    obtain rfl := Option.some.inj hstep
    exact .inl (.move i (hlt hget) (by decide) s.taskQ)
  next hget =>
    split_ifs at hstep
    · obtain rfl := Option.some.inj hstep
      exact .inl (.move i (hlt hget) (by decide) s.taskQ)
    · obtain rfl := Option.some.inj hstep
      exact .inl (.move i (hlt hget) (by decide) s.taskQ)
  next hget =>
    obtain rfl := Option.some.inj hstep
    exact .inr ⟨hget, rfl⟩
  next hget =>
    split_ifs at hstep
    obtain rfl := Option.some.inj hstep
    left
    rw [workerWoken]
    split_ifs <;> exact .move i (hlt hget) (by decide) s.taskQ
  next hget =>
    obtain rfl := Option.some.inj hstep
    left
    rw [workerPassed]
    split_ifs
    · exact .move i (hlt hget) (by decide) s.taskQ
    · exact .move i (hlt hget) (by simp) (takeTask s.taskQ).2
  next hget =>
    obtain rfl := Option.some.inj hstep
    exact .inl (.move i (hlt hget) (by decide) s.taskQ)
  next hget =>
    split_ifs at hstep
    obtain rfl := Option.some.inj hstep
    exact .inl (.move i (hlt hget) (by decide) s.taskQ)
  next hget =>
    obtain rfl := Option.some.inj hstep
    left
    rw [threadExit]
    split <;> exact .move i (hlt hget) (by decide) s.taskQ
  all_goals cases hstep

theorem crewStep_managerStep (hstep : s.managerStep wake = some s') : s.crew.Step s'.crew := by
  rw [managerStep] at hstep
  split at hstep
  · obtain rfl := Option.some.inj hstep
    exact .same
  · split_ifs at hstep
    obtain rfl := Option.some.inj hstep
    exact .same
  · split_ifs at hstep
    · obtain rfl := Option.some.inj hstep
      obtain ⟨started, table, hgrown⟩ := growLoop_cases s 0 0 s.maxNum.toNat
      rw [hgrown]
      exact .grow started
    · obtain rfl := Option.some.inj hstep
      exact .same
  · split_ifs at hstep
    · obtain rfl := Option.some.inj hstep
      exact .same
    · obtain rfl := Option.some.inj hstep
      exact .same
  · split_ifs at hstep
    · have hsignal := crewStep_signalNotEmpty hstep
      exact hsignal
    · obtain rfl := Option.some.inj hstep
      exact .same
  · cases hstep

theorem crewStep_addTask (hopen : s'.shutdown = false) (hstep : s.addTask p wake = some s') :
    s.crew.Step s'.crew := by
  rw [addTask] at hstep
  have hlt : ∀ {pc}, s.producers[p]? = some pc → p < s.producers.length :=
    fun hget => (List.getElem?_eq_some_iff.mp hget).1
  split at hstep
  next task hget =>
    split_ifs at hstep with hshutdown
    · obtain rfl := Option.some.inj hstep
      exact absurd hshutdown (ne_true_of_eq_false hopen)
    · obtain rfl := Option.some.inj hstep
      exact .call p (hlt hget) (by simp) (.inr ⟨_, List.mem_of_getElem? hget, by simp⟩) s.taskQ
  next task hget =>
    obtain rfl := Option.some.inj hstep
    exact .call p (hlt hget) (by simp) (.inr ⟨_, List.mem_of_getElem? hget, by simp⟩) _
  next hget =>
    rcases signalNotEmpty_cases hstep with ⟨hnone, rfl⟩ | ⟨i, hwaiting, rfl⟩
    · exact .signalNone p hget hnone
    · exact .signal p i (List.getElem?_eq_some_iff.mp hwaiting).1
  all_goals cases hstep

theorem crewStep_construct (hstep : s.construct = some s') : s.crew.Step s'.crew := by
  rw [construct] at hstep
  split at hstep
  · split_ifs at hstep with hlt
    · obtain rfl := Option.some.inj hstep
      exact .create _ ‹_›
    · obtain rfl := Option.some.inj hstep
      exact .created _ ‹_› (not_lt.mp hlt)
  · cases hstep

theorem crewStep_destroy (hstep : s.destroy wake = some s') : s.crew.Step s'.crew := by
  rw [destroy] at hstep
  split at hstep
  · split_ifs at hstep
    obtain rfl := Option.some.inj hstep
    exact .same
  · split_ifs at hstep
    · have hsignal := crewStep_signalNotEmpty hstep
      exact hsignal
    · obtain rfl := Option.some.inj hstep
      exact .same
  · cases hstep
  · cases hstep

/-- A step that leaves the pool open either lets a worker block or is one of the
others. -/
theorem crewStep_step {a : Action} (hopen : s'.shutdown = false) (hstep : s.step a = some s') :
    s.crew.Step s'.crew ∨
      ∃ i wake, a = .run (.worker i) wake ∧ s.workers[i]? = some .blocking ∧
        s'.crew = s.crew.setWorker i .waiting := by
  rw [step] at hstep
  split_ifs at hstep
  cases a with
  | run thread wake =>
      cases thread with
      | creator => exact .inl (crewStep_construct hstep)
      | manager => exact .inl (crewStep_managerStep hstep)
      | worker i => exact (crewStep_worker hstep).imp_right fun hblock => ⟨i, wake, rfl, hblock⟩
      | producer p => exact .inl (crewStep_addTask hopen hstep)
      | destroyer => exact .inl (crewStep_destroy hstep)
  | add p task =>
      rw [perform] at hstep
      split_ifs at hstep with hready
      obtain rfl := Option.some.inj hstep
      have hlt := (List.getElem?_eq_some_iff.mp hready.2).1
      exact .inl (.call p hlt (by simp) (.inl hready.1) s.taskQ)
  | destroy =>
      rw [perform] at hstep
      split_ifs at hstep
      obtain rfl := Option.some.inj hstep
      cases hopen
  | spurious i =>
      rw [perform] at hstep
      split_ifs at hstep
      exact .inl (crewStep_signalNotEmpty hstep)

end State

/-! ## Workers for the queue -/

namespace Crew

variable {crew crew' : Crew} {i : ℕ}

/-- There are workers once tasks can be added. -/
structure Manned (crew : Crew) : Prop where
  minNum_pos : 1 ≤ crew.minNum
  started : ∀ i, crew.creator = .creating i → i ≤ crew.workers.length
  workers : crew.creator = .returned → crew.workers ≠ []
  timely : ∀ pc ∈ crew.producers, pc ≠ .idle → crew.creator = .returned

theorem Manned.setWorker (hmanned : crew.Manned) (pc : WorkerPc) : (crew.setWorker i pc).Manned where
  minNum_pos := hmanned.minNum_pos
  started := by
    intro j hcreating
    rw [Crew.setWorker, List.length_set]
    exact hmanned.started j hcreating
  workers := by
    intro hreturned hnil
    have hlength : crew.workers.length = 0 := by
      rw [← List.length_set (i := i) (a := pc)]
      exact congrArg List.length hnil
    exact hmanned.workers hreturned (List.length_eq_zero_iff.mp hlength)
  timely := hmanned.timely

theorem Manned.setProducer (hmanned : crew.Manned) {p : ℕ} {pc : ProducerPc}
    (hactive : pc = .idle ∨ crew.creator = .returned) : (crew.setProducer p pc).Manned where
  minNum_pos := hmanned.minNum_pos
  started := hmanned.started
  workers := hmanned.workers
  timely := by
    intro other hmem hne
    rcases List.mem_or_eq_of_mem_set hmem with hold | rfl
    · exact hmanned.timely other hold hne
    · exact hactive.resolve_left hne

theorem Manned.hire (hmanned : crew.Manned) (started : ℕ) : (crew.hire started).Manned where
  minNum_pos := hmanned.minNum_pos
  started := by
    intro j hcreating
    have hle := hmanned.started j hcreating
    simp only [Crew.hire, List.length_append]
    omega
  workers := by
    intro hreturned hnil
    exact hmanned.workers hreturned (List.append_eq_nil_iff.mp hnil).1
  timely := hmanned.timely

theorem Manned.step (hmanned : crew.Manned) (hstep : crew.Step crew') : crew'.Manned := by
  cases hstep with
  | same => exact hmanned
  | @move i pc hlt hpc queue =>
      have hset := hmanned.setWorker (i := i) pc
      exact ⟨hset.minNum_pos, hset.started, hset.workers, hset.timely⟩
  | grow started => exact hmanned.hire started
  | create i hcreating =>
      have hnever : CreatorPc.creating (i + 1) ≠ .returned := by simp
      refine ⟨hmanned.minNum_pos, ?_, fun hreturned => absurd hreturned hnever, ?_⟩
      · intro j hj
        obtain rfl := CreatorPc.creating.inj hj
        have hle := hmanned.started i hcreating
        simp only [Crew.hire, List.length_append, List.length_replicate]
        push_cast
        omega
      · intro pc hmem hne
        have hreturned := hmanned.timely pc hmem hne
        rw [hcreating] at hreturned
        cases hreturned
  | created i hcreating hle =>
      have hnever : ∀ j, CreatorPc.returned ≠ .creating j := by simp
      refine ⟨hmanned.minNum_pos, fun j hj => absurd hj (hnever j), ?_, fun _ _ _ => rfl⟩
      intro _ hnil
      have hpos := hmanned.minNum_pos
      have hstarted := hmanned.started i hcreating
      change crew.workers = [] at hnil
      rw [hnil, List.length_nil] at hstarted
      omega
  | @call p pc hlt hpc hactive queue =>
      have hreturned : crew.creator = .returned := by
        rcases hactive with hreturned | ⟨other, hmem, hne⟩
        · exact hreturned
        · exact hmanned.timely other hmem hne
      have hset : (crew.setProducer p pc).Manned := hmanned.setProducer (.inr hreturned)
      exact ⟨hset.minNum_pos, hset.started, hset.workers, hset.timely⟩
  | signal p i hlt => exact (hmanned.setProducer (.inl rfl)).setWorker .woken
  | signalNone p hget hnone => exact hmanned.setProducer (.inl rfl)

/-- Tasks are queued, no call of `addTask` is in progress, and all workers are
blocked. -/
def Lost (crew : Crew) : Prop :=
  crew.taskQ ≠ [] ∧ (∀ pc ∈ crew.producers, pc = .idle) ∧ ∀ pc ∈ crew.workers, pc = .waiting

/-- Only a worker that blocks can be the last to make the queue lost. -/
theorem Lost.of_step (hmanned : crew.Manned) (hstep : crew.Step crew') (hlost : crew'.Lost) :
    crew.Lost := by
  obtain ⟨hqueue, hidle, hwaiting⟩ := hlost
  cases hstep with
  | same => exact ⟨hqueue, hidle, hwaiting⟩
  | @move i pc hlt hpc queue => exact absurd (hwaiting pc (List.mem_set hlt pc)) hpc
  | grow started =>
      exact ⟨hqueue, hidle, fun pc hmem => hwaiting pc (List.mem_append_left _ hmem)⟩
  | create i hcreating =>
      exact ⟨hqueue, hidle, fun pc hmem => hwaiting pc (List.mem_append_left _ hmem)⟩
  | created i hcreating hle => exact ⟨hqueue, hidle, hwaiting⟩
  | @call p pc hlt hpc hactive queue => exact absurd (hidle pc (List.mem_set hlt pc)) hpc
  | signal p i hlt => exact absurd (hwaiting .woken (List.mem_set hlt .woken)) (by decide)
  | signalNone p hget hnone =>
      have hreturned := hmanned.timely .signalling (List.mem_of_getElem? hget) (by decide)
      obtain ⟨pc, hmem⟩ := List.exists_mem_of_ne_nil _ (hmanned.workers hreturned)
      exact absurd (hwaiting pc hmem ▸ hmem) hnone

/-- A worker that blocks makes the queue lost if the others are blocked already. -/
theorem lost_setWorker_waiting :
    (crew.setWorker i .waiting).Lost ↔ crew.taskQ ≠ [] ∧ (∀ pc ∈ crew.producers, pc = .idle) ∧
      ∀ j pc, j ≠ i → crew.workers[j]? = some pc → pc = .waiting := by
  refine and_congr_right fun _ => and_congr_right fun _ => ⟨fun hall j pc hne hget => ?_,
    fun hothers pc hmem => ?_⟩
  · refine hall pc (List.mem_of_getElem? (i := j) ?_)
    rw [setWorker, List.getElem?_set_ne hne.symm, hget]
  · obtain ⟨j, hget⟩ := List.getElem?_of_mem hmem
    rcases getElem?_set_cases hget with ⟨-, hpc⟩ | ⟨hne, hold⟩
    · exact hpc
    · exact hothers j pc hne hold

end Crew

/-! ## Quiet runs -/

/-- The manager has not asked threads to exit, and the pool is not shut down. -/
def State.Quiet (s : State) : Prop := s.exitNum = 0 ∧ s.shutdown = false

instance (s : State) : Decidable s.Quiet := inferInstanceAs (Decidable (_ ∧ _))

/-- A worker begins to wait although the queue is not empty any more, with every
other worker blocked and no call of `addTask` in progress. -/
def State.BlocksLate (s : State) (a : Action) : Prop :=
  ∃ i wake, a = .run (.worker i) wake ∧ s.workers[i]? = some .blocking ∧ s.taskQ ≠ [] ∧
    (∀ pc ∈ s.producers, pc = .idle) ∧ ∀ j pc, j ≠ i → s.workers[j]? = some pc → pc = .waiting

variable {s s' : State} {a : Action} {minNum maxNum : ℤ}

theorem manned_initial (hmin : 1 ≤ minNum) (producers : ℕ) :
    (State.initial minNum maxNum producers).crew.Manned where
  minNum_pos := hmin
  started := by
    intro i hcreating
    obtain rfl := CreatorPc.creating.inj hcreating
    exact Int.natCast_nonneg _
  workers := fun hreturned => by cases hreturned
  timely := fun pc hmem hne => absurd (List.eq_of_mem_replicate hmem) hne

theorem manned_step (hmanned : s.crew.Manned) (hopen : s'.shutdown = false)
    (hstep : s.step a = some s') : s'.crew.Manned := by
  rcases State.crewStep_step hopen hstep with hcrew | ⟨i, wake, -, -, hcrew⟩
  · exact hmanned.step hcrew
  · rw [hcrew]
    exact hmanned.setWorker .waiting

theorem lost_step (hmanned : s.crew.Manned) (hkept : ¬ s.crew.Lost) (hopen : s'.shutdown = false)
    (hstep : s.step a = some s') (htimely : ¬ s.BlocksLate a) : ¬ s'.crew.Lost := by
  intro hlost
  rcases State.crewStep_step hopen hstep with hcrew | ⟨i, wake, rfl, hget, hcrew⟩
  · exact hkept (hlost.of_step hmanned hcrew)
  · rw [hcrew, Crew.lost_setWorker_waiting] at hlost
    exact htimely ⟨i, wake, rfl, hget, hlost⟩

theorem lost_of_blocksLate (hlate : s.BlocksLate a) (hstep : s.step a = some s') :
    s'.crew.Lost := by
  obtain ⟨i, wake, rfl, hget, hothers⟩ := hlate
  rw [State.step] at hstep
  split_ifs at hstep
  have hworker : s.worker i = some s' := hstep
  rw [State.worker, hget] at hworker
  obtain rfl := Option.some.inj hworker
  change (s.crew.setWorker i .waiting).Lost
  rw [Crew.lost_setWorker_waiting]
  exact hothers

/-- The quiet runs in which no task waits for workers that are all blocked are
those in which no worker blocks late. -/
theorem notLost_iff (hmin : 1 ≤ minNum) {visited : List (State × Action)}
    (hrun : (system minNum maxNum).Run visited s) (hquiet : ∀ before ∈ visited, before.1.Quiet)
    (hs : s.Quiet) :
    ((∀ before ∈ visited, ¬ before.1.crew.Lost) ∧ ¬ s.crew.Lost) ↔
      ∀ taken ∈ visited, ¬ taken.1.BlocksLate taken.2 := by
  have hrestricted := TransitionSystem.run_restrict.mpr ⟨hrun, hquiet, hs⟩
  have hinitial : ∀ s, ((system minNum maxNum).restrict State.Quiet).initial s →
      s.crew.Manned ∧ ¬ s.crew.Lost := by
    rintro _ ⟨⟨producers, rfl⟩, -⟩
    exact ⟨manned_initial hmin producers, fun hlost => hlost.1 rfl⟩
  have hgood : ∀ s a s', s.crew.Manned ∧ ¬ s.crew.Lost →
      ((system minNum maxNum).restrict State.Quiet).step s a = some s' → ¬ s.BlocksLate a →
      s'.crew.Manned ∧ ¬ s'.crew.Lost := by
    rintro s a s' ⟨hmanned, hkept⟩ hstep htimely
    obtain ⟨hstep, -, hopen⟩ := TransitionSystem.step_restrict.mp hstep
    exact ⟨manned_step hmanned hopen hstep, lost_step hmanned hkept hopen hstep htimely⟩
  have hbad : ∀ s a s', s.crew.Manned ∧ ¬ s.crew.Lost →
      ((system minNum maxNum).restrict State.Quiet).step s a = some s' → s.BlocksLate a →
      ¬ ¬ s'.crew.Lost := by
    rintro s a s' - hstep hlate
    exact not_not_intro (lost_of_blocksLate hlate (TransitionSystem.step_restrict.mp hstep).1)
  exact TransitionSystem.Run.forall_iff (fun _ h => h.2) hinitial hgood hbad hrestricted

/-- The only worker has tested the empty queue when a task is pushed and
signalled, and waits then. -/
def lateWait : List Action :=
  [.run .creator none, .run .creator none, .run (.worker 0) none, .run (.worker 0) none,
    .add 0 ⟨1, 10⟩, .run (.producer 0) none, .run (.producer 0) none, .run (.producer 0) none,
    .run (.worker 0) none]

theorem exists_lateWait :
    ∃ visited s, ((system 1 1).restrict State.Quiet).Run visited s ∧ s.taskQ = [⟨1, 10⟩] ∧
      s.producers = [.idle] ∧ s.workers = [.waiting] := by
  have hfields : (((system 1 1).restrict State.Quiet).execute (.initial 1 1 1) lateWait).map
      (fun s => (s.taskQ, s.producers, s.workers)) = some ([⟨1, 10⟩], [.idle], [.waiting]) := by
    decide +kernel
  obtain ⟨s, hs, heq⟩ := Option.map_eq_some_iff.mp hfields
  simp only [Prod.mk.injEq] at heq
  have hstart : ((system 1 1).restrict State.Quiet).Run [] _ := .initial ⟨⟨1, rfl⟩, by decide⟩
  obtain ⟨visited, hrun⟩ := hstart.execute hs
  exact ⟨visited, s, hrun, heq⟩

theorem lost_of_lateWait (hqueue : s.taskQ = [⟨1, 10⟩]) (hproducers : s.producers = [.idle])
    (hworkers : s.workers = [.waiting]) : s.crew.Lost := by
  refine ⟨?_, ?_, ?_⟩
  · simp [State.crew, hqueue]
  · simp [State.crew, hproducers]
  · simp [State.crew, hworkers]

theorem notLost_iff_lateWait :
    ∃ visited s, (system 1 1).Run visited s ∧ s.crew.Lost ∧
      ∃ taken ∈ visited, taken.1.BlocksLate taken.2 := by
  obtain ⟨visited, s, hrestricted, hfields⟩ := exists_lateWait
  obtain ⟨hrun, hquiet, hs⟩ := TransitionSystem.run_restrict.mp hrestricted
  have hlost := lost_of_lateWait hfields.1 hfields.2.1 hfields.2.2
  refine ⟨visited, s, hrun, hlost, ?_⟩
  by_contra hnone
  refine ((notLost_iff (by decide) hrun hquiet hs).mpr ?_).2 hlost
  exact fun taken hmem hlate => hnone ⟨taken, hmem, hlate⟩

theorem lost_wakeup :
    ¬ ∀ visited s, (system 1 1).Run visited s → (∀ before ∈ visited, before.1.Quiet) →
      s.Quiet → ¬ s.crew.Lost := by
  intro hall
  obtain ⟨visited, s, hrestricted, hfields⟩ := exists_lateWait
  obtain ⟨hrun, hquiet, hs⟩ := TransitionSystem.run_restrict.mp hrestricted
  exact hall visited s hrun hquiet hs (lost_of_lateWait hfields.1 hfields.2.1 hfields.2.2)

end CppPool

end CppProjects
