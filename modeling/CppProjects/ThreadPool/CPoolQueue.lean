import CppProjects.Core.RingBuffer
import CppProjects.ThreadPool.CPool

/-!
# The task queue of the C pool

Until the pool is shut down a step leaves the queue alone, adds one task at the
rear while there is room, or takes the one at the front.  The tasks taken,
followed by those in the ring, are therefore the tasks added, in order.
-/

namespace CppProjects

namespace CPool

/-! ## Signals and growth -/

namespace State

variable {s s' : State} {wake : Option ℕ}

theorem signalNotEmpty_cases (hsignal : s.signalNotEmpty wake = some s') :
    (.waiting ∉ s.workers ∧ s' = s) ∨
      ∃ i, s.workers[i]? = some .waiting ∧ s' = s.setWorker i .woken := by
  cases wake with
  | none =>
      rw [signalNotEmpty] at hsignal
      split_ifs at hsignal with hwaiting
      exact .inl ⟨hwaiting, (Option.some.inj hsignal).symm⟩
  | some i =>
      rw [signalNotEmpty] at hsignal
      split_ifs at hsignal with hwaiting
      exact .inr ⟨i, hwaiting, (Option.some.inj hsignal).symm⟩

theorem signalNotFull_cases (hsignal : s.signalNotFull wake = some s') :
    s' = s ∨ ∃ p task, s.producers[p]? = some (.waiting task) ∧
      s' = s.setProducer p (.woken task) := by
  cases wake with
  | none =>
      rw [signalNotFull] at hsignal
      split_ifs at hsignal
      exact .inl (Option.some.inj hsignal).symm
  | some p =>
      rw [signalNotFull] at hsignal
      split at hsignal
      · exact .inr ⟨p, _, ‹_›, (Option.some.inj hsignal).symm⟩
      · cases hsignal

/-- Growth starts threads, counts them and fills slots of the table. -/
theorem growLoop_cases (s : State) (counter : ℤ) (i slots : ℕ) :
    ∃ (started : ℕ) (table : ℕ → ℕ), s.growLoop counter i slots =
      { s with
        workers := s.workers ++ List.replicate started .loop
        liveNum := s.liveNum + started
        threadIDs := table } := by
  induction slots generalizing s counter i with
  | zero => exact ⟨0, s.threadIDs, by simp [growLoop]⟩
  | succ slots ih =>
      rw [growLoop]
      split_ifs with hgo hfree
      · obtain ⟨started, table, hrest⟩ :=
          ih { s.createWorker i with liveNum := s.liveNum + 1 } (counter + 1) (i + 1)
        refine ⟨started + 1, table, hrest.trans ?_⟩
        simp only [createWorker, List.append_assoc, List.singleton_append, Nat.cast_add,
          Nat.cast_one, ← List.replicate_succ]
        rw [add_assoc, add_comm 1 (started : ℤ)]
      · exact ih s counter (i + 1)
      · exact ⟨0, s.threadIDs, by simp⟩

/-! ## What a step does to the queue -/

end State

/-- The part of the state that `threadPoolAdd` and the workers share. -/
structure Queue where
  taskQ : ℤ → Option Task
  capacity : ℤ
  size : ℤ
  front : ℤ
  rear : ℤ
  added : List Task
  taken : List (Option Task)

def State.queue (s : State) : Queue :=
  ⟨s.taskQ, s.queueCapacity, s.queueSize, s.queueFront, s.queueRear, s.added, s.taken⟩

namespace Queue

def push (queue : Queue) (task : Task) : Queue :=
  { queue with
    taskQ := Function.update queue.taskQ queue.rear (some task)
    rear := (queue.rear + 1).tmod queue.capacity
    size := queue.size + 1
    added := queue.added ++ [task] }

def pop (queue : Queue) : Queue :=
  { queue with
    front := (queue.front + 1).tmod queue.capacity
    size := queue.size - 1
    taken := queue.taken ++ [queue.taskQ queue.front] }

/-- The tasks in the ring, from the front on. -/
def ring (queue : Queue) : List (Option Task) :=
  ringWindow queue.taskQ queue.capacity queue.front queue.size.toNat

/-- The queue's positions fit its array, and no task is lost or duplicated. -/
structure Ok (queue : Queue) : Prop where
  layout : RingLayout queue.capacity queue.size queue.front queue.rear
  fifo : queue.taken ++ queue.ring = queue.added.map some

theorem Ok.push {queue : Queue} (hqueue : queue.Ok) (hroom : queue.size ≠ queue.capacity)
    (task : Task) : (queue.push task).Ok where
  layout := by
    have hlayout := hqueue.layout.push hroom
    rwa [← Int.tmod_eq_emod_of_nonneg (by linarith [hqueue.layout.rear_nonneg])] at hlayout
  fifo := by
    obtain ⟨count, hcount⟩ := Int.eq_ofNat_of_zero_le hqueue.layout.size_nonneg
    have hlt : (count : ℤ) < queue.capacity := by
      have := hqueue.layout.size_le
      omega
    have hfifo := hqueue.fifo
    rw [ring, hcount, Int.toNat_natCast] at hfifo
    have hsize : (queue.size + 1).toNat = count + 1 := by omega
    change queue.taken ++ ringWindow (Function.update queue.taskQ queue.rear (some task))
      queue.capacity queue.front (queue.size + 1).toNat = (queue.added ++ [task]).map some
    rw [hqueue.layout.rear_eq, hsize, hcount, ringWindow_push _ hlt, ← List.append_assoc, hfifo,
      List.map_append]
    rfl

theorem Ok.pop {queue : Queue} (hqueue : queue.Ok) (hsome : queue.size ≠ 0) :
    queue.pop.Ok where
  layout := by
    have hlayout := hqueue.layout.pop hsome
    rwa [← Int.tmod_eq_emod_of_nonneg (by linarith [hqueue.layout.front_nonneg])] at hlayout
  fifo := by
    have hpos := hqueue.layout.size_nonneg
    obtain ⟨count, hcount⟩ : ∃ count : ℕ, queue.size = count + 1 :=
      ⟨(queue.size - 1).toNat, by omega⟩
    have hfifo := hqueue.fifo
    have hsize : (queue.size - 1).toNat = count := by omega
    rw [ring, hcount, show ((count : ℤ) + 1).toNat = count + 1 by omega,
      ringWindow_succ_front _ hqueue.layout.front_nonneg hqueue.layout.front_lt] at hfifo
    change queue.taken ++ [queue.taskQ queue.front] ++ ringWindow queue.taskQ queue.capacity
      ((queue.front + 1).tmod queue.capacity) (queue.size - 1).toNat = queue.added.map some
    rw [hsize, Int.tmod_eq_emod_of_nonneg (by linarith [hqueue.layout.front_nonneg]),
      List.append_assoc, List.singleton_append, hfifo]

/-- What a step may do to the queue before the pool is shut down. -/
inductive Step (queue : Queue) : Queue → Prop
  | same : Step queue queue
  | push (task : Task) (hroom : queue.size ≠ queue.capacity) : Step queue (queue.push task)
  | pop (hsome : queue.size ≠ 0) : Step queue queue.pop

theorem Ok.step {queue queue' : Queue} (hqueue : queue.Ok) (hstep : queue.Step queue') :
    queue'.Ok := by
  cases hstep with
  | same => exact hqueue
  | push task hroom => exact hqueue.push hroom task
  | pop hsome => exact hqueue.pop hsome

end Queue

/-- A producer that has seen `shutdown` and stores its task all the same. -/
def ProducerPc.late : ProducerPc → Bool
  | .lateStore _ | .lateRear | .lateSize | .lateSignal => true
  | .idle | .adding _ | .waiting _ | .woken _ => false

namespace State

variable {s s' : State} {wake : Option ℕ}

/-- While the pool is open no producer is late, and none has begun before
`threadPoolCreate` returned. -/
def Timely (s : State) : Prop :=
  s.shutdown = false → ∀ pc ∈ s.producers,
    pc.late = false ∧ (pc = .idle ∨ s.creator = .returned)

theorem Timely.setProducer (htimely : s.Timely) {p : ℕ} {pc : ProducerPc}
    (hpc : pc.late = false) (hstarted : pc = .idle ∨ s.creator = .returned) :
    (s.setProducer p pc).Timely := by
  intro hopen other hmem
  rcases List.mem_or_eq_of_mem_set hmem with hold | rfl
  · exact htimely hopen other hold
  · exact ⟨hpc, hstarted⟩

theorem Timely.returned (htimely : s.Timely) (hopen : s.shutdown = false) {p : ℕ}
    {pc : ProducerPc} (hget : s.producers[p]? = some pc) (hpc : pc ≠ .idle) :
    s.creator = .returned :=
  (htimely hopen pc (List.mem_of_getElem? hget)).2.resolve_left hpc

/-- What the queue's invariant is about is the same in both states. -/
structure Frame (s s' : State) : Prop where
  queue : s'.queue = s.queue
  producers : s'.producers = s.producers
  shutdown : s'.shutdown = s.shutdown
  creator : s.creator = .returned → s'.creator = .returned

theorem frame_setWorker (s : State) (i : ℕ) (pc : WorkerPc) : s.Frame (s.setWorker i pc) :=
  ⟨rfl, rfl, rfl, id⟩

theorem frame_signalNotEmpty (hsignal : s.signalNotEmpty wake = some s') : s.Frame s' := by
  rcases signalNotEmpty_cases hsignal with ⟨-, rfl⟩ | ⟨i, -, rfl⟩
  · exact ⟨rfl, rfl, rfl, id⟩
  · exact frame_setWorker s i .woken

theorem frame_managerStep (hstep : s.managerStep wake = some s') : s.Frame s' := by
  rw [managerStep] at hstep
  split at hstep
  · obtain rfl := Option.some.inj hstep
    exact ⟨rfl, rfl, rfl, id⟩
  · obtain rfl := Option.some.inj hstep
    exact ⟨rfl, rfl, rfl, id⟩
  · obtain rfl := Option.some.inj hstep
    exact ⟨rfl, rfl, rfl, id⟩
  · obtain rfl := Option.some.inj hstep
    split_ifs
    · obtain ⟨started, table, hgrown⟩ := growLoop_cases s 0 0 s.maxNum.toNat
      rw [hgrown]
      exact ⟨rfl, rfl, rfl, id⟩
    · exact ⟨rfl, rfl, rfl, id⟩
  · split_ifs at hstep
    · obtain rfl := Option.some.inj hstep
      exact ⟨rfl, rfl, rfl, id⟩
    · obtain rfl := Option.some.inj hstep
      exact ⟨rfl, rfl, rfl, id⟩
  · split_ifs at hstep
    · obtain ⟨hqueue, hproducers, hshutdown, hcreator⟩ := frame_signalNotEmpty hstep
      exact ⟨hqueue, hproducers, hshutdown, hcreator⟩
    · obtain rfl := Option.some.inj hstep
      exact ⟨rfl, rfl, rfl, id⟩
  · cases hstep

theorem frame_threadPoolCreate (hstep : s.threadPoolCreate = some s') : s.Frame s' := by
  rw [threadPoolCreate] at hstep
  split at hstep
  · have hcreating : s.creator ≠ .returned := by simp [*]
    split_ifs at hstep
    · obtain rfl := Option.some.inj hstep
      exact ⟨rfl, rfl, rfl, fun h => absurd h hcreating⟩
    · obtain rfl := Option.some.inj hstep
      exact ⟨rfl, rfl, rfl, fun _ => rfl⟩
  · cases hstep

theorem frame_threadPoolDestroy (hstep : s.threadPoolDestroy wake = some s') : s.Frame s' := by
  rw [threadPoolDestroy] at hstep
  split at hstep
  · split_ifs at hstep
    obtain rfl := Option.some.inj hstep
    exact ⟨rfl, rfl, rfl, id⟩
  · split_ifs at hstep
    · obtain ⟨hqueue, hproducers, hshutdown, hcreator⟩ := frame_signalNotEmpty hstep
      exact ⟨hqueue, hproducers, hshutdown, hcreator⟩
    · obtain rfl := Option.some.inj hstep
      exact ⟨rfl, rfl, rfl, id⟩
  · cases hstep
  · cases hstep

/-- What a step does while the pool stays open: one change of the queue, and no
producer goes past its test of `shutdown`. -/
structure OpenStep (s s' : State) : Prop where
  shutdown : s.shutdown = false
  queue : s.queue.Step s'.queue
  timely : s'.Timely

theorem Frame.timely (hframe : s.Frame s') (htimely : s.Timely) : s'.Timely := by
  intro hopen pc hmem
  rw [hframe.producers] at hmem
  obtain ⟨hlate, hstarted⟩ := htimely (hframe.shutdown ▸ hopen) pc hmem
  exact ⟨hlate, hstarted.imp_right hframe.creator⟩

theorem Frame.openStep (hframe : s.Frame s') (htimely : s.Timely) (hopen : s'.shutdown = false) :
    s.OpenStep s' where
  shutdown := hframe.shutdown ▸ hopen
  queue := by
    rw [hframe.queue]
    exact .same
  timely := hframe.timely htimely

theorem openStep_signalNotFull (htimely : s.Timely)
    (hsignal : s.signalNotFull wake = some s') :
    s'.queue = s.queue ∧ s'.shutdown = s.shutdown ∧ s'.Timely := by
  rcases signalNotFull_cases hsignal with rfl | ⟨p, task, hget, rfl⟩
  · exact ⟨rfl, rfl, htimely⟩
  · refine ⟨rfl, rfl, fun hopen => ?_⟩
    exact htimely.setProducer rfl (.inr (htimely.returned hopen hget (by simp))) hopen

theorem openStep_workerRegion {i : ℕ} (htimely : s.Timely) (hopen : s'.shutdown = false)
    (hstep : s.workerRegion i wake = some s') : s.OpenStep s' := by
  rw [workerRegion] at hstep
  split_ifs at hstep with hempty hshutdown
  · obtain rfl := Option.some.inj hstep
    exact (frame_setWorker s i .waiting).openStep htimely hopen
  · obtain rfl := Option.some.inj hstep
    exact (frame_setWorker s i .leaving).openStep htimely hopen
  · have hclosed : s.shutdown = false := by simpa using hshutdown
    have hsome : s.queueSize ≠ 0 := fun hzero => hempty ⟨hzero, hclosed⟩
    obtain ⟨hqueue, -, htimely'⟩ := openStep_signalNotFull (by exact htimely) hstep
    refine ⟨hclosed, ?_, htimely'⟩
    rw [hqueue]
    exact .pop hsome

/-- A worker's step is one of its region, or is not about the queue. -/
theorem worker_cases {i : ℕ} (hstep : s.worker i wake = some s') :
    s.Frame s' ∨ ∃ before : State, s.Frame before ∧ before.workerRegion i wake = some s' := by
  rw [worker] at hstep
  split at hstep
  · exact .inr ⟨s, ⟨rfl, rfl, rfl, id⟩, hstep⟩
  · rw [workerWoken] at hstep
    split_ifs at hstep
    · obtain rfl := Option.some.inj hstep
      exact .inl ⟨rfl, rfl, rfl, id⟩
    · exact .inr ⟨{ s with exitNum := s.exitNum - 1 }, ⟨rfl, rfl, rfl, id⟩, hstep⟩
    · exact .inr ⟨s, ⟨rfl, rfl, rfl, id⟩, hstep⟩
  · obtain rfl := Option.some.inj hstep
    exact .inl ⟨rfl, rfl, rfl, id⟩
  · obtain rfl := Option.some.inj hstep
    exact .inl (frame_setWorker s i .ending)
  · obtain rfl := Option.some.inj hstep
    exact .inl ⟨rfl, rfl, rfl, id⟩
  · obtain rfl := Option.some.inj hstep
    rw [threadDestroy]
    split
    · exact .inl ⟨rfl, rfl, rfl, id⟩
    · exact .inl (frame_setWorker s i .exited)
  · cases hstep
  · cases hstep
  · cases hstep

theorem openStep_worker {i : ℕ} (htimely : s.Timely) (hopen : s'.shutdown = false)
    (hstep : s.worker i wake = some s') : s.OpenStep s' := by
  rcases worker_cases hstep with hframe | ⟨before, hframe, hregion⟩
  · exact hframe.openStep htimely hopen
  · obtain ⟨hshutdown, hqueue, htimely'⟩ :=
      openStep_workerRegion (hframe.timely htimely) hopen hregion
    exact ⟨hframe.shutdown ▸ hshutdown, hframe.queue ▸ hqueue, htimely'⟩

theorem openStep_threadPoolAdd {p : ℕ} {task : Task} (htimely : s.Timely)
    (hreturned : s.shutdown = false → s.creator = .returned) (hopen : s'.shutdown = false)
    (hstep : s.threadPoolAdd p task wake = some s') : s.OpenStep s' := by
  rw [threadPoolAdd] at hstep
  split_ifs at hstep with hfull hshutdown
  · obtain rfl := Option.some.inj hstep
    exact ⟨hfull.2, .same, htimely.setProducer rfl (.inr (hreturned hfull.2))⟩
  · obtain rfl := Option.some.inj hstep
    exact absurd hshutdown (ne_true_of_eq_false hopen)
  · have hclosed : s.shutdown = false := by simpa using hshutdown
    have hroom : s.queueSize ≠ s.queueCapacity := fun heq => hfull ⟨heq, hclosed⟩
    have hidle : (s.setProducer p .idle).Timely := htimely.setProducer rfl (.inl rfl)
    have hsignal := frame_signalNotEmpty hstep
    refine ⟨hclosed, ?_, (hsignal.openStep hidle hopen).timely⟩
    rw [hsignal.queue]
    exact .push task hroom

theorem openStep_producer {p : ℕ} (htimely : s.Timely) (hopen : s'.shutdown = false)
    (hstep : s.producer p wake = some s') : s.OpenStep s' := by
  have hnever : ∀ pc : ProducerPc, pc.late = true → s.producers[p]? = some pc →
      s.shutdown ≠ false := by
    intro pc hpc hget hclosed
    exact absurd (htimely hclosed pc (List.mem_of_getElem? hget)).1 (by simp [hpc])
  rw [producer] at hstep
  split at hstep
  · exact openStep_threadPoolAdd htimely
      (fun hclosed => htimely.returned hclosed ‹_› (by simp)) hopen hstep
  · exact openStep_threadPoolAdd htimely
      (fun hclosed => htimely.returned hclosed ‹_› (by simp)) hopen hstep
  · obtain rfl := Option.some.inj hstep
    exact absurd hopen (hnever _ rfl ‹_›)
  · obtain rfl := Option.some.inj hstep
    exact absurd hopen (hnever _ rfl ‹_›)
  · obtain rfl := Option.some.inj hstep
    exact absurd hopen (hnever _ rfl ‹_›)
  · rw [(frame_signalNotEmpty hstep).shutdown] at hopen
    exact absurd hopen (hnever _ rfl ‹_›)
  · cases hstep
  · cases hstep
  · cases hstep

theorem openStep_perform {a : Action} (htimely : s.Timely) (hopen : s'.shutdown = false)
    (hstep : s.perform a = some s') : s.OpenStep s' := by
  cases a with
  | run thread wake =>
      cases thread with
      | creator => exact (frame_threadPoolCreate hstep).openStep htimely hopen
      | manager => exact (frame_managerStep hstep).openStep htimely hopen
      | worker i => exact openStep_worker htimely hopen hstep
      | producer p => exact openStep_producer htimely hopen hstep
      | destroyer => exact (frame_threadPoolDestroy hstep).openStep htimely hopen
  | add p task =>
      rw [perform] at hstep
      split_ifs at hstep with hcall
      obtain rfl := Option.some.inj hstep
      exact ⟨hopen, .same, htimely.setProducer rfl (.inr hcall.1)⟩
  | destroy =>
      rw [perform] at hstep
      split_ifs at hstep
      obtain rfl := Option.some.inj hstep
      cases hopen
  | spuriousWorker i =>
      rw [perform] at hstep
      split_ifs at hstep
      exact (frame_signalNotEmpty hstep).openStep htimely hopen
  | spuriousProducer p =>
      rw [perform] at hstep
      split_ifs at hstep
      obtain ⟨hqueue, hshutdown, htimely'⟩ := openStep_signalNotFull htimely hstep
      refine ⟨hshutdown ▸ hopen, ?_, htimely'⟩
      rw [hqueue]
      exact .same

theorem perform_of_step {a : Action} (hstep : s.step a = some s') : s.perform a = some s' := by
  rw [step] at hstep
  split_ifs at hstep
  exact hstep

/-- Every step that leaves the pool open. -/
theorem openStep_step {a : Action} (htimely : s.Timely) (hopen : s'.shutdown = false)
    (hstep : s.step a = some s') : s.OpenStep s' :=
  openStep_perform htimely hopen (perform_of_step hstep)

end State

/-! ## First in, first out -/

variable {minNum maxNum capacity : ℤ}

theorem Queue.Step.capacity_eq {queue queue' : Queue} (hstep : queue.Step queue') :
    queue'.capacity = queue.capacity := by
  cases hstep <;> rfl

theorem queue_initial (hcapacity : 1 ≤ capacity) (producers : ℕ) :
    (State.initial minNum maxNum capacity producers).queue.Ok where
  layout := RingLayout.empty hcapacity
  fifo := rfl

theorem timely_initial (producers : ℕ) :
    (State.initial minNum maxNum capacity producers).Timely := by
  intro _ pc hmem
  rw [List.eq_of_mem_replicate hmem]
  exact ⟨rfl, .inl rfl⟩

/-- While the pool is open its queue is intact. -/
theorem queue_invariant (hcapacity : 1 ≤ capacity) {s : State}
    (hreach : (system minNum maxNum capacity).Reachable s) :
    s.Timely ∧ (s.shutdown = false → s.queue.Ok ∧ s.queueCapacity = capacity) := by
  apply hreach.invariant
  · rintro _ ⟨producers, rfl⟩
    exact ⟨timely_initial producers, fun _ => ⟨queue_initial hcapacity producers, rfl⟩⟩
  · rintro s a s' ⟨htimely, hqueue⟩ hstep
    by_cases hopen : s'.shutdown = false
    · have htaken := State.openStep_step htimely hopen hstep
      obtain ⟨hok, hcap⟩ := hqueue htaken.shutdown
      exact ⟨htaken.timely, fun _ => ⟨hok.step htaken.queue, htaken.queue.capacity_eq.trans hcap⟩⟩
    · exact ⟨fun h => absurd h hopen, fun h => absurd h hopen⟩

/-- In every state of an open pool the size is within the capacity, front and
rear are positions of the array and as far apart as the size says, and the tasks
taken so far, followed by those in the ring, are the tasks added. -/
theorem taskQueue_fifo (hcapacity : 1 ≤ capacity) {s : State}
    (hreach : (system minNum maxNum capacity).Reachable s) (hopen : s.shutdown = false) :
    (0 ≤ s.queueSize ∧ s.queueSize ≤ s.queueCapacity) ∧
      (0 ≤ s.queueFront ∧ s.queueFront < s.queueCapacity) ∧
      (0 ≤ s.queueRear ∧ s.queueRear < s.queueCapacity) ∧
      s.queueRear = (s.queueFront + s.queueSize) % s.queueCapacity ∧
      s.taken ++ s.queue.ring = s.added.map some := by
  obtain ⟨hlayout, hfifo⟩ := ((queue_invariant hcapacity hreach).2 hopen).1
  exact ⟨⟨hlayout.size_nonneg, hlayout.size_le⟩, ⟨hlayout.front_nonneg, hlayout.front_lt⟩,
    ⟨hlayout.rear_nonneg, hlayout.rear_lt⟩, hlayout.rear_eq, hfifo⟩

/-- One worker is created, two tasks are added, and the first is taken. -/
def addTwoTakeOne : List Action :=
  [.run .creator none, .run .creator none, .add 0 ⟨1, 10⟩, .run (.producer 0) none,
    .add 0 ⟨2, 20⟩, .run (.producer 0) none, .run (.worker 0) none]

theorem taskQueue_fifo_addTwoTakeOne :
    ∃ s, (system 1 1 2).Reachable s ∧ s.shutdown = false ∧ s.taken = [some ⟨1, 10⟩] ∧
      s.added = [⟨1, 10⟩, ⟨2, 20⟩] ∧ s.queue.ring = [some ⟨2, 20⟩] ∧
      s.taken ++ s.queue.ring = s.added.map some := by
  have hfields : ((system 1 1 2).execute (.initial 1 1 2 1) addTwoTakeOne).map
      (fun s => (s.shutdown, s.taken, s.added, s.queue.ring)) =
        some (false, [some ⟨1, 10⟩], [⟨1, 10⟩, ⟨2, 20⟩], [some ⟨2, 20⟩]) := by
    decide +kernel
  obtain ⟨s, hs, heq⟩ := Option.map_eq_some_iff.mp hfields
  simp only [Prod.mk.injEq] at heq
  obtain ⟨hopen, htaken, hadded, hring⟩ := heq
  have hstart : (system 1 1 2).Run [] _ := .initial ⟨1, rfl⟩
  obtain ⟨visited, hrun⟩ := hstart.execute hs
  have hreach := hrun.reachable
  exact ⟨s, hreach, hopen, htaken, hadded, hring,
    (taskQueue_fifo (by decide) hreach hopen).2.2.2.2⟩

end CPool

end CppProjects
