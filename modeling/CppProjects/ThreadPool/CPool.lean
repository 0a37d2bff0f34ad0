import CppProjects.Core.TransitionSystem

/-!
# The C thread pool

The pool of `threadPool.c`: its fields, the position of every thread in its
loop, and one step for each region under `mutexPool` or `mutexBusy` and for each
access outside of them.  A signal wakes one of the threads that wait, whichever
the step's label names.

Allocations and thread creations succeed.  The thread table is a cell for each
index; only the first `max` of them belong to the pool.
-/

namespace CppProjects

namespace CPool

/-- `NUMBER`: how many threads the manager starts or stops at a time. -/
def NUMBER : ℤ := 2

structure Task where
  function : ℕ
  arg : ℕ
deriving DecidableEq, Repr

/-- The pool.  A cell of `taskQ` is `none` until it is first written, and a cell
of `threadIDs` is `0` while no thread owns it. -/
structure Pool where
  taskQ : ℤ → Option Task
  queueCapacity : ℤ
  queueSize : ℤ
  queueFront : ℤ
  queueRear : ℤ
  threadIDs : ℕ → ℕ
  minNum : ℤ
  maxNum : ℤ
  busyNum : ℤ
  liveNum : ℤ
  exitNum : ℤ
  shutdown : Bool

/-- Where a worker is. -/
inductive WorkerPc
  /-- At the head of its loop, about to lock `mutexPool`. -/
  | loop
  /-- Blocked in `pthread_cond_wait` on `notEmpty`. -/
  | waiting
  /-- Woken, about to lock `mutexPool` again. -/
  | woken
  /-- With a task, before `busyNum` is incremented. -/
  | starting (task : Option Task)
  | running (task : Option Task)
  /-- Done with its task, before `busyNum` is decremented. -/
  | ending
  /-- Out of its loop, in `threadDestroy`. -/
  | leaving
  | exited
deriving DecidableEq, Repr

/-- Where the manager is, with the values it has read. -/
inductive ManagerPc
  | test
  | asleep
  | snapshot (queueSize liveNum : ℤ)
  | grow (queueSize liveNum busyNum : ℤ)
  | shrink (liveNum busyNum : ℤ)
  | signalling (i : ℤ)
  | exited
deriving DecidableEq, Repr

/-- Where a thread that calls `threadPoolAdd` is. -/
inductive ProducerPc
  | idle
  /-- In `threadPoolAdd`, about to lock `mutexPool`. -/
  | adding (task : Task)
  /-- Blocked in `pthread_cond_wait` on `notFull`. -/
  | waiting (task : Task)
  | woken (task : Task)
  /-- Has seen `shutdown` and unlocked, but goes on to store its task. -/
  | lateStore (task : Task)
  | lateRear
  | lateSize
  | lateSignal
deriving DecidableEq, Repr

/-- Where `threadPoolCreate` is. -/
inductive CreatorPc
  | creating (i : ℤ)
  | returned
deriving DecidableEq, Repr

/-- Where `threadPoolDestroy` is. -/
inductive DestroyerPc
  | absent
  | joining
  | signalling (i : ℤ)
  | freed
deriving DecidableEq, Repr

/-- The pool and its threads.  `added` and `taken` are histories: the tasks
`threadPoolAdd` has stored and the ones the workers have read. -/
structure State extends Pool where
  workers : List WorkerPc
  manager : ManagerPc
  producers : List ProducerPc
  creator : CreatorPc
  destroyer : DestroyerPc
  added : List Task
  taken : List (Option Task)

namespace State

def setWorker (s : State) (i : ℕ) (pc : WorkerPc) : State :=
  { s with workers := s.workers.set i pc }

def setProducer (s : State) (p : ℕ) (pc : ProducerPc) : State :=
  { s with producers := s.producers.set p pc }

/-- `pthread_cond_signal(&pool->notEmpty)`. -/
def signalNotEmpty (s : State) : Option ℕ → Option State
  | some i => if s.workers[i]? = some .waiting then some (s.setWorker i .woken) else none
  | none => if .waiting ∈ s.workers then none else some s

/-- `pthread_cond_signal(&pool->notFull)`. -/
def signalNotFull (s : State) : Option ℕ → Option State
  | some p =>
      match s.producers[p]? with
      | some (.waiting task) => some (s.setProducer p (.woken task))
      | _ => none
  | none => if s.producers.any (· matches .waiting _) then none else some s

/-- `pthread_create(&pool->threadIDs[slot], NULL, worker, pool)`: worker `i` has
the identifier `i + 1`. -/
def createWorker (s : State) (slot : ℕ) : State :=
  { s with
    workers := s.workers ++ [.loop]
    threadIDs := Function.update s.threadIDs slot (s.workers.length + 1) }

/-! ## Workers -/

/-- The worker's region from the test of its wait loop on. -/
def workerRegion (s : State) (i : ℕ) (wake : Option ℕ) : Option State :=
  if s.queueSize = 0 ∧ s.shutdown = false then
    some (s.setWorker i .waiting)
  else if s.shutdown then
    some (s.setWorker i .leaving)
  else
    let task := s.taskQ s.queueFront
    ({ s with
      queueFront := (s.queueFront + 1).tmod s.queueCapacity
      queueSize := s.queueSize - 1
      taken := s.taken ++ [task] }.setWorker i (.starting task)).signalNotFull wake

/-- Behind the wait: a request to exit is looked at first. -/
def workerWoken (s : State) (i : ℕ) (wake : Option ℕ) : Option State :=
  if 0 < s.exitNum then
    if s.minNum < s.liveNum then
      some ({ s with exitNum := s.exitNum - 1, liveNum := s.liveNum - 1 }.setWorker i .leaving)
    else
      { s with exitNum := s.exitNum - 1 }.workerRegion i wake
  else
    s.workerRegion i wake

/-- `threadDestroy`: the first slot that holds the thread's identifier is
cleared, without a lock. -/
def threadDestroy (s : State) (i : ℕ) : State :=
  match (List.range s.maxNum.toNat).find? fun slot => s.threadIDs slot = i + 1 with
  | some slot => { s with threadIDs := Function.update s.threadIDs slot 0 }.setWorker i .exited
  | none => s.setWorker i .exited

def worker (s : State) (i : ℕ) (wake : Option ℕ) : Option State :=
  match s.workers[i]? with
  | some .loop => s.workerRegion i wake
  | some .woken => s.workerWoken i wake
  | some (.starting task) =>
      some ({ s with busyNum := s.busyNum + 1 }.setWorker i (.running task))
  | some (.running _) => some (s.setWorker i .ending)
  | some .ending => some ({ s with busyNum := s.busyNum - 1 }.setWorker i .loop)
  | some .leaving => some (s.threadDestroy i)
  | some .waiting | some .exited | none => none

/-! ## Manager -/

/-- The loop that starts threads, from slot `i` on with `counter` started and
`slots` left to look at. -/
def growLoop (s : State) (counter : ℤ) (i : ℕ) : ℕ → State
  | 0 => s
  | slots + 1 =>
      if counter < NUMBER ∧ s.liveNum < s.maxNum then
        if s.threadIDs i = 0 then
          growLoop { s.createWorker i with liveNum := s.liveNum + 1 } (counter + 1) (i + 1) slots
        else
          growLoop s counter (i + 1) slots
      else s

def managerStep (s : State) (wake : Option ℕ) : Option State :=
  match s.manager with
  | .test => some { s with manager := if s.shutdown then .exited else .asleep }
  | .asleep => some { s with manager := .snapshot s.queueSize s.liveNum }
  | .snapshot queueSize liveNum => some { s with manager := .grow queueSize liveNum s.busyNum }
  | .grow queueSize liveNum busyNum =>
      let grown :=
        if queueSize > liveNum ∧ liveNum < s.maxNum then s.growLoop 0 0 s.maxNum.toNat else s
      some { grown with manager := .shrink liveNum busyNum }
  | .shrink liveNum busyNum =>
      if busyNum * 2 < liveNum ∧ liveNum > s.minNum then
        some { s with exitNum := NUMBER, manager := .signalling 0 }
      else
        some { s with manager := .test }
  | .signalling i =>
      if i < NUMBER then { s with manager := .signalling (i + 1) }.signalNotEmpty wake
      else some { s with manager := .test }
  | .exited => none

/-! ## Producers -/

/-- The region of `threadPoolAdd`, from the test of its wait loop on. -/
def threadPoolAdd (s : State) (p : ℕ) (task : Task) (wake : Option ℕ) : Option State :=
  if s.queueSize = s.queueCapacity ∧ s.shutdown = false then
    some (s.setProducer p (.waiting task))
  else if s.shutdown then
    some (s.setProducer p (.lateStore task))
  else
    ({ s with
      taskQ := Function.update s.taskQ s.queueRear (some task)
      queueRear := (s.queueRear + 1).tmod s.queueCapacity
      queueSize := s.queueSize + 1
      added := s.added ++ [task] }.setProducer p .idle).signalNotEmpty wake

def producer (s : State) (p : ℕ) (wake : Option ℕ) : Option State :=
  match s.producers[p]? with
  | some (.adding task) | some (.woken task) => s.threadPoolAdd p task wake
  | some (.lateStore task) =>
      some ({ s with
        taskQ := Function.update s.taskQ s.queueRear (some task)
        added := s.added ++ [task] }.setProducer p .lateRear)
  | some .lateRear =>
      some ({ s with queueRear := (s.queueRear + 1).tmod s.queueCapacity }.setProducer p .lateSize)
  | some .lateSize => some ({ s with queueSize := s.queueSize + 1 }.setProducer p .lateSignal)
  | some .lateSignal => (s.setProducer p .idle).signalNotEmpty wake
  | some .idle | some (.waiting _) | none => none

/-! ## Creation and destruction -/

/-- The pool as `threadPoolCreate` has filled it in, with the manager started
and no worker yet, and the threads that will call `threadPoolAdd`. -/
def initial (minNum maxNum queueSize : ℤ) (producers : ℕ) : State where
  taskQ := fun _ => none
  queueCapacity := queueSize
  queueSize := 0
  queueFront := 0
  queueRear := 0
  threadIDs := fun _ => 0
  minNum := minNum
  maxNum := maxNum
  busyNum := 0
  liveNum := minNum
  exitNum := 0
  shutdown := false
  workers := []
  manager := .test
  producers := List.replicate producers .idle
  creator := .creating 0
  destroyer := .absent
  added := []
  taken := []

def threadPoolCreate (s : State) : Option State :=
  match s.creator with
  | .creating i =>
      if i < s.minNum then some { s.createWorker i.toNat with creator := .creating (i + 1) }
      else some { s with creator := .returned }
  | .returned => none

def threadPoolDestroy (s : State) (wake : Option ℕ) : Option State :=
  match s.destroyer with
  | .joining => if s.manager = .exited then some { s with destroyer := .signalling 0 } else none
  | .signalling i =>
      if i < s.liveNum then { s with destroyer := .signalling (i + 1) }.signalNotEmpty wake
      else some { s with destroyer := .freed }
  | .absent | .freed => none

end State

/-! ## The system -/

inductive Thread
  | creator
  | manager
  | worker (i : ℕ)
  | producer (p : ℕ)
  | destroyer
deriving DecidableEq, Repr

/-- What happens next: a thread takes its step, and its signal, if there is one,
wakes `wake`; a call of `threadPoolAdd` or `threadPoolDestroy` begins; a wait
ends without a signal. -/
inductive Action
  | run (thread : Thread) (wake : Option ℕ)
  | add (p : ℕ) (task : Task)
  | destroy
  | spuriousWorker (i : ℕ)
  | spuriousProducer (p : ℕ)
deriving DecidableEq, Repr

namespace State

def runThread (s : State) (wake : Option ℕ) : Thread → Option State
  | .creator => s.threadPoolCreate
  | .manager => s.managerStep wake
  | .worker i => s.worker i wake
  | .producer p => s.producer p wake
  | .destroyer => s.threadPoolDestroy wake

def perform (s : State) : Action → Option State
  | .run thread wake => s.runThread wake thread
  | .add p task =>
      if s.creator = .returned ∧ s.producers[p]? = some .idle then
        some (s.setProducer p (.adding task))
      else none
  | .destroy =>
      if s.creator = .returned ∧ s.destroyer = .absent then
        some { s with shutdown := true, destroyer := .joining }
      else none
  | .spuriousWorker i =>
      if s.workers[i]? = some .waiting then s.signalNotEmpty i else none
  | .spuriousProducer p =>
      if s.producers[p]?.any (· matches .waiting _) then s.signalNotFull p else none

/-- One step.  What follows the release of the pool is not determined. -/
def step (s : State) (action : Action) : Option State :=
  if s.destroyer = .freed then none else s.perform action

end State

/-- The pool after `threadPoolCreate(minNum, maxNum, queueSize)`, used by any
number of producers. -/
def system (minNum maxNum queueSize : ℤ) : TransitionSystem State Action where
  initial s := ∃ producers, s = State.initial minNum maxNum queueSize producers
  step := State.step

end CPool

end CppProjects
