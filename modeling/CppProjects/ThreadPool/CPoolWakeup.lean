import CppProjects.Core.ListUpdate
import CppProjects.ThreadPool.CPoolQueue

/-!
# Wakeups of the C pool

`notEmpty` carries two messages: that a task was added, and that the manager
wants threads to exit.  A worker woken for a task looks for a request to exit
first, and a request may be left over from a signal that found nobody waiting.
The worker then leaves, and the task it was woken for has no other worker.
-/

namespace CppProjects

namespace CPool

/-- The worker has not left its loop. -/
def WorkerPc.live : WorkerPc → Bool
  | .loop | .waiting | .woken | .starting _ | .running _ | .ending => true
  | .leaving | .exited => false

/-- The worker is in its loop and not blocked in `pthread_cond_wait`. -/
def WorkerPc.awake (pc : WorkerPc) : Bool := pc.live && pc != .waiting

/-- The workers, with what decides how many of them there are. -/
structure Crew where
  workers : List WorkerPc
  minNum : ℤ
  liveNum : ℤ
  creator : CreatorPc
  queueSize : ℤ

def State.crew (s : State) : Crew := ⟨s.workers, s.minNum, s.liveNum, s.creator, s.queueSize⟩

namespace Crew

def setWorker (crew : Crew) (i : ℕ) (pc : WorkerPc) : Crew :=
  { crew with workers := crew.workers.set i pc }

def hire (crew : Crew) (started : ℕ) : Crew :=
  { crew with workers := crew.workers ++ List.replicate started .loop }

/-- What a step may do to the crew of an open pool, other than sending a worker
off. -/
inductive Step (crew : Crew) : Crew → Prop
  | same : Step crew crew
  | move (i : ℕ) {pc pc' : WorkerPc} (hget : crew.workers[i]? = some pc)
      (hlive : pc'.live = pc.live) (hawake : pc'.awake = pc'.live) :
      Step crew (crew.setWorker i pc')
  | block (i : ℕ) {pc : WorkerPc} (hget : crew.workers[i]? = some pc) (hlive : pc.live = true)
      (hempty : crew.queueSize = 0) : Step crew (crew.setWorker i .waiting)
  | take (i : ℕ) {pc : WorkerPc} (hget : crew.workers[i]? = some pc) (hlive : pc.live = true)
      (task : Option Task) :
      Step crew { crew.setWorker i (.starting task) with queueSize := crew.queueSize - 1 }
  | add (hnone : .waiting ∉ crew.workers) (hreturned : crew.creator = .returned) :
      Step crew { crew with queueSize := crew.queueSize + 1 }
  | addWake (i : ℕ) (hget : crew.workers[i]? = some .waiting) :
      Step crew { crew.setWorker i .woken with queueSize := crew.queueSize + 1 }
  | grow (started : ℕ) : Step crew { crew.hire started with liveNum := crew.liveNum + started }
  | create (i : ℤ) (hcreating : crew.creator = .creating i) (hlt : i < crew.minNum) :
      Step crew { crew.hire 1 with creator := .creating (i + 1) }
  | created (i : ℤ) (hcreating : crew.creator = .creating i) (hle : crew.minNum ≤ i) :
      Step crew { crew with creator := .returned }

/-- A worker uses up a request to exit. -/
def retire (crew : Crew) (i : ℕ) : Crew :=
  { crew.setWorker i .leaving with liveNum := crew.liveNum - 1 }

end Crew

namespace State

variable {s s' : State} {wake : Option ℕ}

/-- Worker `i`, once it runs, finds a request to exit and leaves. -/
def Retires (s : State) (i : ℕ) : Prop :=
  s.workers[i]? = some .woken ∧ 0 < s.exitNum ∧ s.minNum < s.liveNum

theorem crew_signalNotFull (hsignal : s.signalNotFull wake = some s') : s'.crew = s.crew := by
  rcases signalNotFull_cases hsignal with rfl | ⟨p, task, -, rfl⟩ <;> rfl

theorem crewStep_signalNotEmpty (hsignal : s.signalNotEmpty wake = some s') :
    s.crew.Step s'.crew := by
  rcases signalNotEmpty_cases hsignal with ⟨-, rfl⟩ | ⟨i, hget, rfl⟩
  · exact .same
  · exact .move i hget rfl rfl

theorem crewStep_workerRegion {i : ℕ} {pc : WorkerPc} (hget : s.workers[i]? = some pc)
    (hlive : pc.live = true) (hopen : s'.shutdown = false)
    (hstep : s.workerRegion i wake = some s') : s.crew.Step s'.crew := by
  rw [workerRegion] at hstep
  split_ifs at hstep with hempty hshutdown
  · obtain rfl := Option.some.inj hstep
    exact .block i hget hlive hempty.1
  · obtain rfl := Option.some.inj hstep
    exact absurd hshutdown (ne_true_of_eq_false hopen)
  · rw [crew_signalNotFull hstep]
    exact .take i hget hlive _

theorem crewStep_worker {i : ℕ} (hopen : s'.shutdown = false)
    (hstep : s.worker i wake = some s') :
    s.crew.Step s'.crew ∨ (s.Retires i ∧ s'.crew = s.crew.retire i) := by
  rw [worker] at hstep
  split at hstep
  next hget => exact .inl (crewStep_workerRegion hget rfl hopen hstep)
  next hget =>
    rw [workerWoken] at hstep
    split_ifs at hstep with hexit hmin
    · obtain rfl := Option.some.inj hstep
      exact .inr ⟨⟨hget, hexit, hmin⟩, rfl⟩
    · have hcredit : { s with exitNum := s.exitNum - 1 }.crew.Step s'.crew :=
        crewStep_workerRegion hget rfl hopen hstep
      exact .inl hcredit
    · exact .inl (crewStep_workerRegion hget rfl hopen hstep)
  next task hget =>
    obtain rfl := Option.some.inj hstep
    exact .inl (.move i hget rfl rfl)
  next task hget =>
    obtain rfl := Option.some.inj hstep
    exact .inl (.move i hget rfl rfl)
  next hget =>
    obtain rfl := Option.some.inj hstep
    exact .inl (.move i hget rfl rfl)
  next hget =>
    obtain rfl := Option.some.inj hstep
    left
    rw [threadDestroy]
    split <;> exact .move i hget rfl rfl
  all_goals cases hstep

theorem crewStep_managerStep (hstep : s.managerStep wake = some s') : s.crew.Step s'.crew := by
  rw [managerStep] at hstep
  split at hstep
  · obtain rfl := Option.some.inj hstep
    exact .same
  · obtain rfl := Option.some.inj hstep
    exact .same
  · obtain rfl := Option.some.inj hstep
    exact .same
  · obtain rfl := Option.some.inj hstep
    split_ifs
    · obtain ⟨started, table, hgrown⟩ := growLoop_cases s 0 0 s.maxNum.toNat
      rw [hgrown]
      exact .grow started
    · exact .same
  · split_ifs at hstep
    · obtain rfl := Option.some.inj hstep
      exact .same
    · obtain rfl := Option.some.inj hstep
      exact .same
  · split_ifs at hstep
    · have hsignal := crewStep_signalNotEmpty hstep
      exact hsignal
    · obtain rfl := Option.some.inj hstep
      exact .same
  · cases hstep

theorem crewStep_threadPoolCreate (hstep : s.threadPoolCreate = some s') :
    s.crew.Step s'.crew := by
  rw [threadPoolCreate] at hstep
  split at hstep
  · split_ifs at hstep with hlt
    · obtain rfl := Option.some.inj hstep
      exact .create _ ‹_› hlt
    · obtain rfl := Option.some.inj hstep
      exact .created _ ‹_› (not_lt.mp hlt)
  · cases hstep

theorem crewStep_threadPoolDestroy (hstep : s.threadPoolDestroy wake = some s') :
    s.crew.Step s'.crew := by
  rw [threadPoolDestroy] at hstep
  split at hstep
  · split_ifs at hstep
    obtain rfl := Option.some.inj hstep
    exact .same
  · split_ifs at hstep
    · have hsignal := crewStep_signalNotEmpty hstep
      exact hsignal
    · obtain rfl := Option.some.inj hstep
      exact .same
  · cases hstep
  · cases hstep

theorem crewStep_threadPoolAdd {p : ℕ} {task : Task} (hreturned : s.creator = .returned)
    (hopen : s'.shutdown = false) (hstep : s.threadPoolAdd p task wake = some s') :
    s.crew.Step s'.crew := by
  rw [threadPoolAdd] at hstep
  split_ifs at hstep with hfull hshutdown
  · obtain rfl := Option.some.inj hstep
    exact .same
  · obtain rfl := Option.some.inj hstep
    exact .same
  · rcases signalNotEmpty_cases hstep with ⟨hnone, rfl⟩ | ⟨i, hget, rfl⟩
    · exact .add hnone hreturned
    · exact .addWake i hget

theorem crewStep_producer {p : ℕ} (htimely : s.Timely) (hopen : s'.shutdown = false)
    (hstep : s.producer p wake = some s') : s.crew.Step s'.crew := by
  have hclosed := (openStep_producer htimely hopen hstep).shutdown
  have hnever : ∀ {pc : ProducerPc}, pc.late = true → s.producers[p]? ≠ some pc := by
    intro pc hpc hget
    exact absurd (htimely hclosed pc (List.mem_of_getElem? hget)).1 (by simp [hpc])
  rw [producer] at hstep
  split at hstep
  next task hget =>
    exact crewStep_threadPoolAdd (htimely.returned hclosed hget (by simp)) hopen hstep
  next task hget =>
    exact crewStep_threadPoolAdd (htimely.returned hclosed hget (by simp)) hopen hstep
  next task hget => exact absurd hget (hnever rfl)
  next hget => exact absurd hget (hnever rfl)
  next hget => exact absurd hget (hnever rfl)
  next hget => exact absurd hget (hnever rfl)
  all_goals cases hstep

/-- A step of an open pool either sends a worker off or is one of the others. -/
theorem crewStep_step {a : Action} (htimely : s.Timely) (hopen : s'.shutdown = false)
    (hstep : s.step a = some s') :
    s.crew.Step s'.crew ∨
      ∃ i wake, a = .run (.worker i) wake ∧ s.Retires i ∧ s'.crew = s.crew.retire i := by
  have hperform := perform_of_step hstep
  cases a with
  | run thread wake =>
      cases thread with
      | creator => exact .inl (crewStep_threadPoolCreate hperform)
      | manager => exact .inl (crewStep_managerStep hperform)
      | worker i =>
          refine (crewStep_worker hopen hperform).imp_right fun hretires => ?_
          exact ⟨i, wake, rfl, hretires⟩
      | producer p => exact .inl (crewStep_producer htimely hopen hperform)
      | destroyer => exact .inl (crewStep_threadPoolDestroy hperform)
  | add p task =>
      rw [perform] at hperform
      split_ifs at hperform
      obtain rfl := Option.some.inj hperform
      exact .inl .same
  | destroy =>
      rw [perform] at hperform
      split_ifs at hperform
      obtain rfl := Option.some.inj hperform
      exact .inl .same
  | spuriousWorker i =>
      rw [perform] at hperform
      split_ifs at hperform
      exact .inl (crewStep_signalNotEmpty hperform)
  | spuriousProducer p =>
      rw [perform] at hperform
      split_ifs at hperform
      rw [crew_signalNotFull hperform]
      exact .inl .same

end State

/-! ## Enough workers -/

/-- How many workers `threadPoolCreate` has still to create. -/
def Crew.pending (crew : Crew) : ℕ :=
  match crew.creator with
  | .creating i => (crew.minNum - i).toNat
  | .returned => 0

theorem Crew.pending_creating {crew : Crew} {i : ℤ} (hcreating : crew.creator = .creating i) :
    crew.pending = (crew.minNum - i).toNat := by
  rw [pending, hcreating]

theorem Crew.pending_returned {crew : Crew} (hreturned : crew.creator = .returned) :
    crew.pending = 0 := by
  rw [pending, hreturned]

def Crew.live (crew : Crew) : ℕ := crew.workers.countP WorkerPc.live

/-- `liveNum` counts the workers that have not left their loop, and does not
fall below `minNum`. -/
structure Crew.Staffed (crew : Crew) : Prop where
  minNum_le : crew.minNum ≤ crew.liveNum
  liveNum_eq : crew.liveNum = crew.live + crew.pending

namespace Crew

variable {crew crew' : Crew} {i : ℕ} {pc : WorkerPc}

theorem live_setWorker (hget : crew.workers[i]? = some pc) {pc' : WorkerPc}
    (hlive : pc'.live = pc.live) : (crew.setWorker i pc').live = crew.live := by
  have hcount := countP_set_of_getElem? WorkerPc.live hget pc'
  rw [hlive] at hcount
  exact Nat.add_right_cancel hcount

theorem live_hire (started : ℕ) : (crew.hire started).live = crew.live + started := by
  simp [live, hire, List.countP_append, List.countP_replicate, WorkerPc.live]

theorem Staffed.of_live (hstaffed : crew.Staffed) (hmin : crew'.minNum = crew.minNum)
    (hnum : crew'.liveNum = crew.liveNum) (hlive : crew'.live = crew.live)
    (hpending : crew'.pending = crew.pending) : crew'.Staffed where
  minNum_le := by rw [hmin, hnum]; exact hstaffed.minNum_le
  liveNum_eq := by rw [hnum, hlive, hpending]; exact hstaffed.liveNum_eq

theorem Staffed.step (hstaffed : crew.Staffed) (hstep : crew.Step crew') : crew'.Staffed := by
  have hmin := hstaffed.minNum_le
  have hnum := hstaffed.liveNum_eq
  cases hstep with
  | same => exact hstaffed
  | move i hget hlive _ => exact hstaffed.of_live rfl rfl (live_setWorker hget hlive) rfl
  | block i hget hlive _ => exact hstaffed.of_live rfl rfl (live_setWorker hget hlive.symm) rfl
  | take i hget hlive _ => exact hstaffed.of_live rfl rfl (live_setWorker hget hlive.symm) rfl
  | add _ _ => exact hstaffed.of_live rfl rfl rfl rfl
  | addWake i hget => exact hstaffed.of_live rfl rfl (live_setWorker hget rfl) rfl
  | grow started =>
      have hlive : (crew.hire started).live = _ := live_hire started
      refine ⟨?_, ?_⟩
      · change crew.minNum ≤ crew.liveNum + started
        omega
      · change crew.liveNum + started = (crew.hire started).live + crew.pending
        rw [hlive, hnum]
        push_cast
        ring
  | create i hcreating hlt =>
      have hlive : (crew.hire 1).live = _ := live_hire 1
      refine ⟨hmin, ?_⟩
      change crew.liveNum = (crew.hire 1).live + (crew.minNum - (i + 1)).toNat
      rw [pending_creating hcreating] at hnum
      omega
  | created i hcreating hle =>
      refine ⟨hmin, ?_⟩
      change crew.liveNum = crew.live + (0 : ℕ)
      rw [pending_creating hcreating] at hnum
      omega

theorem Staffed.retire (hstaffed : crew.Staffed) (hget : crew.workers[i]? = some .woken)
    (hmin : crew.minNum < crew.liveNum) : (crew.retire i).Staffed where
  minNum_le := by
    change crew.minNum ≤ crew.liveNum - 1
    omega
  liveNum_eq := by
    have hnum := hstaffed.liveNum_eq
    have hcount := countP_set_of_getElem? WorkerPc.live hget .leaving
    simp only [WorkerPc.live, if_true, Bool.false_eq_true, if_false, add_zero] at hcount
    change crew.liveNum - 1 = (crew.workers.set i .leaving).countP WorkerPc.live + crew.pending
    rw [hnum, live, ← hcount]
    push_cast
    ring

/-- A worker that is not blocked is there while there are tasks. -/
def Wakeful (crew : Crew) : Prop := 0 < crew.queueSize → ∃ pc ∈ crew.workers, pc.awake = true

theorem exists_awake_setWorker (hget : crew.workers[i]? = some pc) {pc' : WorkerPc}
    (hawake : pc'.awake = true) :
    ∃ other ∈ (crew.setWorker i pc').workers, other.awake = true := by
  have hlt : i < crew.workers.length := (List.getElem?_eq_some_iff.mp hget).1
  exact ⟨pc', List.mem_set hlt pc', hawake⟩

theorem exists_awake_of_ne {j : ℕ} (hne : j ≠ i) {other : WorkerPc}
    (hget : crew.workers[j]? = some other) (hawake : other.awake = true) (pc' : WorkerPc) :
    ∃ other ∈ (crew.setWorker i pc').workers, other.awake = true := by
  refine ⟨other, List.mem_of_getElem? (i := j) ?_, hawake⟩
  rw [setWorker, List.getElem?_set_ne (Ne.symm hne)]
  exact hget

/-- Every step but the departure of a worker keeps a worker for the queue. -/
theorem Wakeful.step (hwakeful : crew.Wakeful) (hstaffed : crew.Staffed) (hmin : 1 ≤ crew.minNum)
    (hstep : crew.Step crew') : crew'.Wakeful := by
  intro hsize
  cases hstep with
  | same => exact hwakeful hsize
  | @move i pc pc' hget hlive hawake =>
      cases hlive' : pc'.live with
      | true => exact exists_awake_setWorker hget (hawake.trans hlive')
      | false =>
          obtain ⟨other, hmem, hother⟩ := hwakeful hsize
          obtain ⟨j, hj⟩ := List.mem_iff_getElem?.mp hmem
          refine exists_awake_of_ne (j := j) ?_ hj hother pc'
          rintro rfl
          obtain rfl : pc = other := Option.some.inj (hget.symm.trans hj)
          rw [WorkerPc.awake, ← hlive, hlive'] at hother
          cases hother
  | block i hget hlive hempty => exact absurd hsize (by simp [setWorker, hempty])
  | take i hget hlive task => exact exists_awake_setWorker hget rfl
  | add hnone hreturned =>
      have hnum := hstaffed.liveNum_eq
      have hle := hstaffed.minNum_le
      rw [pending_returned hreturned] at hnum
      have hpos : 0 < crew.live := by omega
      obtain ⟨pc, hmem, hlive⟩ := List.countP_pos_iff.mp hpos
      refine ⟨pc, hmem, ?_⟩
      have hne : pc ≠ .waiting := fun heq => hnone (heq ▸ hmem)
      simp [WorkerPc.awake, hlive, hne]
  | addWake i hget => exact exists_awake_setWorker hget rfl
  | grow started =>
      obtain ⟨pc, hmem, hawake⟩ := hwakeful hsize
      exact ⟨pc, List.mem_append_left _ hmem, hawake⟩
  | create i hcreating hlt =>
      obtain ⟨pc, hmem, hawake⟩ := hwakeful hsize
      exact ⟨pc, List.mem_append_left _ hmem, hawake⟩
  | created i hcreating hle => exact hwakeful hsize

end Crew

/-! ## Runs -/

namespace State

/-- While the pool is open, a task in the queue finds a worker that is not
blocked. -/
def Wakeful (s : State) : Prop := s.shutdown = false → s.crew.Wakeful

/-- A worker that was woken leaves on a request to exit although tasks are
queued and every other worker is blocked or gone. -/
def Deserts (s : State) (a : Action) : Prop :=
  ∃ i wake, a = .run (.worker i) wake ∧ s.Retires i ∧ s.shutdown = false ∧ 0 < s.queueSize ∧
    ∀ j pc, j ≠ i → s.workers[j]? = some pc → pc.awake = false

/-- What holds of the threads of every reachable pool. -/
structure Manned (s : State) : Prop where
  timely : s.Timely
  minNum_pos : s.shutdown = false → 1 ≤ s.minNum
  staffed : s.shutdown = false → s.crew.Staffed

theorem not_wakeful_of_deserts {s s' : State} {a : Action} (hdeserts : s.Deserts a)
    (hstep : s.step a = some s') : ¬ s'.Wakeful := by
  obtain ⟨i, wake, rfl, ⟨hget, hexit, hmin⟩, hopen, hsize, hothers⟩ := hdeserts
  have hrun : s.worker i wake = some s' := perform_of_step hstep
  rw [worker, hget] at hrun
  dsimp only at hrun
  rw [workerWoken, if_pos hexit, if_pos hmin] at hrun
  obtain rfl := Option.some.inj hrun
  intro hwakeful
  obtain ⟨pc, hmem, hawake⟩ := hwakeful hopen hsize
  obtain ⟨j, hj⟩ := List.mem_iff_getElem?.mp hmem
  change (s.workers.set i .leaving)[j]? = some pc at hj
  rcases getElem?_set_cases hj with ⟨rfl, rfl⟩ | ⟨hne, hold⟩
  · cases hawake
  · exact absurd hawake (by simp [hothers j pc hne hold])

/-- A step of a manned pool that does not desert the queue keeps it wakeful. -/
theorem wakeful_step {s s' : State} {a : Action} (hmanned : s.Manned) (hwakeful : s.Wakeful)
    (hstep : s.step a = some s') (hstays : ¬ s.Deserts a) : s'.Wakeful := by
  intro hopen
  have hclosed := (openStep_step hmanned.timely hopen hstep).shutdown
  rcases crewStep_step hmanned.timely hopen hstep with hcrew | ⟨i, wake, rfl, hretires, hcrew⟩
  · exact (hwakeful hclosed).step (hmanned.staffed hclosed) (hmanned.minNum_pos hclosed) hcrew
  · rw [hcrew]
    intro hsize
    by_contra hnone
    refine hstays ⟨i, wake, rfl, hretires, hclosed, hsize, ?_⟩
    intro j pc hne hj
    by_contra hawake
    exact hnone (Crew.exists_awake_of_ne hne hj (by simpa using hawake) .leaving)

end State

theorem Crew.Step.minNum_eq {crew crew' : Crew} (hstep : crew.Step crew') :
    crew'.minNum = crew.minNum := by
  cases hstep <;> rfl

variable {minNum maxNum capacity : ℤ} {s : State}

theorem manned_initial (hmin : 1 ≤ minNum) (producers : ℕ) :
    (State.initial minNum maxNum capacity producers).Manned where
  timely := timely_initial producers
  minNum_pos := fun _ => hmin
  staffed := fun _ => ⟨le_rfl, by simp [State.initial, State.crew, Crew.live, Crew.pending]; omega⟩

theorem State.Manned.step {s' : State} {a : Action} (hmanned : s.Manned)
    (hstep : s.step a = some s') : s'.Manned := by
  by_cases hopen : s'.shutdown = false
  · have htaken := openStep_step hmanned.timely hopen hstep
    have hclosed := htaken.shutdown
    have hmin : 1 ≤ s.crew.minNum := hmanned.minNum_pos hclosed
    have hstaffed := hmanned.staffed hclosed
    rcases crewStep_step hmanned.timely hopen hstep with hcrew | ⟨i, wake, rfl, hretires, hcrew⟩
    · refine ⟨htaken.timely, fun _ => ?_, fun _ => hstaffed.step hcrew⟩
      exact hmin.trans_eq hcrew.minNum_eq.symm
    · refine ⟨htaken.timely, fun _ => ?_, fun _ => ?_⟩
      · exact hmin.trans_eq (congrArg Crew.minNum hcrew).symm
      · rw [hcrew]
        exact hstaffed.retire hretires.1 hretires.2.2
  · exact ⟨fun h => absurd h hopen, fun h => absurd h hopen, fun h => absurd h hopen⟩

/-- The runs in which no task waits for workers that are all blocked are those
in which no worker deserts the queue. -/
theorem wakeup_kept_iff (hmin : 1 ≤ minNum) {visited : List (State × Action)}
    (hrun : (system minNum maxNum capacity).Run visited s) :
    ((∀ before ∈ visited, before.1.Wakeful) ∧ s.Wakeful) ↔
      ∀ taken ∈ visited, ¬ taken.1.Deserts taken.2 := by
  refine hrun.forall_iff (P := State.Wakeful) (Q := fun s => s.Manned ∧ s.Wakeful)
    (fun s h => h.2) ?_ ?_ ?_
  · rintro _ ⟨producers, rfl⟩
    refine ⟨manned_initial hmin producers, fun _ hsize => ?_⟩
    exact absurd hsize (by simp [State.crew, State.initial])
  · rintro s a s' ⟨hmanned, hwakeful⟩ hstep hstays
    exact ⟨hmanned.step hstep, State.wakeful_step hmanned hwakeful hstep hstays⟩
  · rintro s a s' - hstep hdeserts
    exact State.not_wakeful_of_deserts hdeserts hstep

/-- A thread takes `count` steps, and wakes nobody. -/
def turns (thread : Thread) (count : ℕ) : List Action := List.replicate count (.run thread none)

/-- The manager starts two more workers for a queue of two.  When it asks two of
three workers to exit none of them is waiting, so that the requests are still
there when the third task is added. -/
def desertion : List Action := List.flatten
  [turns .creator 2,
    [.add 0 ⟨1, 10⟩], turns (.producer 0) 1, [.add 0 ⟨2, 20⟩], turns (.producer 0) 1,
    turns .manager 5, turns (.worker 0) 4, turns (.worker 1) 4, turns .manager 8,
    turns (.worker 0) 1, turns (.worker 1) 1, turns (.worker 2) 1,
    [.add 0 ⟨3, 30⟩, .run (.producer 0) (some 0)], turns (.worker 0) 1]

theorem exists_desertion :
    ∃ visited s, (system 1 3 4).Run visited s ∧ s.shutdown = false ∧ s.queueSize = 1 ∧
      s.workers = [.leaving, .waiting, .waiting] := by
  have hfields : ((system 1 3 4).execute (.initial 1 3 4 1) desertion).map
      (fun s => (s.shutdown, s.queueSize, s.workers)) =
        some (false, 1, [.leaving, .waiting, .waiting]) := by
    decide +kernel
  obtain ⟨s, hs, heq⟩ := Option.map_eq_some_iff.mp hfields
  simp only [Prod.mk.injEq] at heq
  have hstart : (system 1 3 4).Run [] _ := .initial ⟨1, rfl⟩
  obtain ⟨visited, hrun⟩ := hstart.execute hs
  exact ⟨visited, s, hrun, heq⟩

theorem not_wakeful_of_desertion (hopen : s.shutdown = false) (hsize : s.queueSize = 1)
    (hworkers : s.workers = [.leaving, .waiting, .waiting]) : ¬ s.Wakeful := by
  intro hwakeful
  obtain ⟨pc, hmem, hawake⟩ := hwakeful hopen (by simp [State.crew, hsize])
  change pc ∈ s.workers at hmem
  rw [hworkers] at hmem
  have hnone : ∀ pc ∈ [WorkerPc.leaving, .waiting, .waiting], pc.awake = false := by decide
  exact absurd hawake (by simp [hnone pc hmem])

theorem wakeup_kept_iff_desertion :
    ∃ visited s, (system 1 3 4).Run visited s ∧ ¬ s.Wakeful ∧
      ∃ taken ∈ visited, taken.1.Deserts taken.2 := by
  obtain ⟨visited, s, hrun, hopen, hsize, hworkers⟩ := exists_desertion
  have hlost := not_wakeful_of_desertion hopen hsize hworkers
  refine ⟨visited, s, hrun, hlost, ?_⟩
  by_contra hnone
  refine hlost ((wakeup_kept_iff (by decide) hrun).mpr ?_).2
  intro taken hmem hdeserts
  exact hnone ⟨taken, hmem, hdeserts⟩

/-- With one worker at least, and three at most, a task can be left with blocked
workers only. -/
theorem wakeup_lost : ¬ ∀ s, (system 1 3 4).Reachable s → s.Wakeful := by
  intro hall
  obtain ⟨visited, s, hrun, hopen, hsize, hworkers⟩ := exists_desertion
  exact not_wakeful_of_desertion hopen hsize hworkers (hall s hrun.reachable)

end CPool

end CppProjects
